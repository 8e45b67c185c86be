import Mathlib.Data.List.ReduceOption
import SheriMl.Client.Websocket
import SheriMl.Lib.Transition

/-!
# Runs of streams over a WebSocket

What the task of `map_response_stream` has sent, or will send when it has read its events, is the
response of the call that the channel is of (`StreamMap.outcome`). An incremental request that goes
on from it means the full request, if the server goes on from the same response
(`reconstructed_of_run`): `response.append` names no response, and a request that is sent late is
appended to what the server has accepted last (`appended_to_other`).
-/

namespace SheriMl.Client

open Transition

variable {I J : Type}

/-! ## What the channel of a call gives -/

def ResponseEvent.item? : ResponseEvent I → Option I
  | .outputItemDone item => some item
  | _ => none

namespace StreamMap

variable (streamMap : StreamMap I)

/-- What the events give after the items `items`. -/
def outcomeOf (items : List I) : List (ResponseEvent I) → Option (LastResponse I)
  | [] => none
  | .outputItemDone item :: rest => outcomeOf (items ++ [item]) rest
  | .completed responseId canAppend :: _ => some ⟨responseId, items, canAppend⟩
  | .failed :: rest | .other :: rest => outcomeOf items rest

/-- The last response, when the events that have come are handled. -/
def outcome : Option (LastResponse I) :=
  streamMap.lastResponse.or (outcomeOf streamMap.itemsAdded streamMap.apiStream)

def gathered : List I := streamMap.itemsAdded ++ streamMap.apiStream.filterMap ResponseEvent.item?

theorem outcomeOf_append {items : List I} {events : List (ResponseEvent I)}
    (h : outcomeOf items events = none) (events' : List (ResponseEvent I)) :
    outcomeOf items (events ++ events') =
      outcomeOf (items ++ events.filterMap ResponseEvent.item?) events' := by
  induction events generalizing items with
  | nil => simp
  | cons event rest ih =>
    cases event with
    | outputItemDone item =>
      rw [List.cons_append, outcomeOf, ih h]
      simp [ResponseEvent.item?]
    | completed responseId canAppend => cases h
    | failed | other =>
      rw [List.cons_append, outcomeOf, ih h]
      rfl

variable {streamMap}

theorem outcome_of_lastResponse {lastResponse : LastResponse I}
    (h : streamMap.lastResponse = some lastResponse) : streamMap.outcome = some lastResponse := by
  rw [outcome, h]
  rfl

/-- Handling an event changes neither what comes of the response nor what has come. -/
theorem handle_outcome {event : ResponseEvent I} {rest : List (ResponseEvent I)}
    (h : streamMap.apiStream = event :: rest) :
    ({ streamMap with apiStream := rest }.handle event).outcome = streamMap.outcome ∧
      (streamMap.outcome = none →
        ({ streamMap with apiStream := rest }.handle event).gathered = streamMap.gathered) := by
  simp only [outcome, gathered, h]
  cases event with
  | outputItemDone item => exact ⟨rfl, fun _ => by simp [handle, ResponseEvent.item?]⟩
  | completed responseId canAppend =>
    cases hlast : streamMap.lastResponse with
    | none =>
      refine ⟨?_, fun hnone => by cases hnone⟩
      simp [handle, outcomeOf]
    | some lastResponse =>
      refine ⟨?_, fun hnone => by cases hnone⟩
      simp [handle]
  | failed | other => exact ⟨rfl, fun _ => rfl⟩

theorem receive_outcome (h : streamMap.outcome = none) (events : List (ResponseEvent I)) :
    { streamMap with apiStream := streamMap.apiStream ++ events }.outcome =
      outcomeOf streamMap.gathered events := by
  rw [outcome, Option.or_eq_none_iff] at h
  obtain ⟨hlast, hevents⟩ := h
  simp only [outcome, hlast, Option.none_or]
  exact outcomeOf_append hevents events

theorem receive_gathered (events : List (ResponseEvent I)) :
    { streamMap with apiStream := streamMap.apiStream ++ events }.gathered =
      streamMap.gathered ++ events.filterMap ResponseEvent.item? := by
  simp [gathered]

end StreamMap

/-! ## What the server holds -/

theorem eq_map_some_of_notMem {streamed : List (Option I)} (h : none ∉ streamed) :
    streamed = streamed.reduceOption.map some := by
  induction streamed with
  | nil => rfl
  | cons item rest ih =>
    rw [List.mem_cons, not_or] at h
    obtain ⟨hitem, hrest⟩ := h
    cases item with
    | none => exact absurd rfl hitem
    | some item => rw [List.reduceOption_cons_of_some, List.map_cons, ← ih hrest]

/-- The server holds what it has been asked, with an answer in which the items are `items`. -/
def Answers (held : Option (ResponsesApiRequest (Option I) J)) (request : ResponsesApiRequest I J)
    (items : List I) : Prop :=
  ∃ streamed, held = some (request.answered streamed) ∧ streamed.reduceOption = items

theorem Answers.mk_nil {request : ResponsesApiRequest I J} :
    Answers (some (request.answered [])) request [] := ⟨[], rfl, rfl⟩

theorem Answers.append {held : ResponsesApiRequest (Option I) J}
    {request : ResponsesApiRequest I J} {items : List I} (h : Answers (some held) request items)
    (hparsed : none ∉ held.input) (appendItems : List I) :
    { held with input := held.input ++ appendItems.map some } =
      ({ request with input := request.input ++ items ++ appendItems } :
        ResponsesApiRequest I J).answered [] := by
  obtain ⟨streamed, hheld, hitems⟩ := h
  obtain rfl := Option.some.inj hheld
  have hstreamed : none ∉ streamed := fun hmem => hparsed (List.mem_append_right _ hmem)
  have hmap := eq_map_some_of_notMem hstreamed
  rw [hitems] at hmap
  simp [ResponsesApiRequest.answered, hmap]

/-! ## The calls -/

/-- The call is the call `base` or its continuation. -/
structure Call.Continues (base call : Call I J) : Prop where
  connection : call.connection = base.connection
  request : call.request = base.request
  wsRequest : call.wsRequest = base.wsRequest
  previous : call.previous = base.previous
  outcome : ∀ last, base.streamMap.outcome = some last → call.streamMap.outcome = some last

/-- What is sent for a call: the full request, or what goes on from the response of a call. -/
def Prepared (calls : Nat → Option (Call I J)) (call : Call I J) : Prop :=
  call.wsRequest = .responseCreate (.from call.request) ∨
    ∃ m base last appendItems, call.previous = some m ∧ calls m = some base ∧
      base.connection = call.connection ∧ base.streamMap.outcome = some last ∧
      call.request = { base.request with
        input := base.request.input ++ last.itemsAdded ++ appendItems } ∧
      (call.wsRequest = .responseCreate { call.request with
          previousResponseId := some last.responseId, input := appendItems } ∧
        last.responseId ≠ [] ∨ call.wsRequest = .responseAppend appendItems)

/-- What holds of a call, its connection and the server. -/
structure Sound (calls : Nat → Option (Call I J)) (n : Nat) (call : Call I J)
    (connection : Connection I J) : Prop where
  prepared : Prepared calls call
  queued : call.queued = true → call.streamMap.outcome = none ∧ call.streamMap.gathered = []
  streaming : connection.holder = some n →
    call.streamMap.outcome = none ∧ connection.lastAccepted = some n
  gathered : connection.holder = some n →
    Answers connection.held call.request call.streamMap.gathered
  extended : ∀ last, call.streamMap.outcome = some last → connection.lastAccepted = some n →
    Answers connection.held call.request last.itemsAdded
  branched : ∀ last, call.streamMap.outcome = some last → last.responseId ≠ [] →
    Answers (connection.responses.lookup last.responseId) call.request last.itemsAdded

def Grows (calls calls' : Nat → Option (Call I J)) : Prop :=
  ∀ m base, calls m = some base → ∃ call, calls' m = some call ∧ base.Continues call

theorem Call.Continues.refl (call : Call I J) : call.Continues call :=
  ⟨rfl, rfl, rfl, rfl, fun _ h => h⟩

theorem Grows.refl (calls : Nat → Option (Call I J)) : Grows calls calls :=
  fun _ base hbase => ⟨base, hbase, .refl base⟩

theorem Grows.update {calls : Nat → Option (Call I J)} {n : Nat} {call' : Call I J}
    (h : ∀ call, calls n = some call → call.Continues call') :
    Grows calls (Function.update calls n (some call')) := by
  intro m base hbase
  by_cases hm : m = n
  · subst hm
    exact ⟨call', Function.update_self .., h base hbase⟩
  · exact ⟨base, by rw [Function.update_of_ne hm, hbase], .refl base⟩

theorem Prepared.mono {calls calls' : Nat → Option (Call I J)} {call call' : Call I J}
    (h : Prepared calls call) (hgrows : Grows calls calls') (hcall : call.Continues call') :
    Prepared calls' call' := by
  unfold Prepared at h ⊢
  rw [hcall.connection, hcall.request, hcall.wsRequest, hcall.previous]
  rcases h with hfull | ⟨m, base, last, appendItems, hm, hbase, hconnection, hlast, hrequest, hsent⟩
  · exact .inl hfull
  · obtain ⟨base', hbase', hcontinues⟩ := hgrows m base hbase
    refine .inr ⟨m, base', last, appendItems, hm, hbase', ?_, hcontinues.outcome last hlast, ?_,
      hsent⟩
    · rw [hcontinues.connection, hconnection]
    · rw [hcontinues.request]
      exact hrequest

/-- What a step of another call keeps for the call `m`. -/
structure Keeps (m : Nat) (connection connection' : Connection I J) : Prop where
  holder : connection'.holder = some m → connection' = connection
  lastAccepted : connection'.lastAccepted = some m →
    connection.lastAccepted = some m ∧ connection'.held = connection.held
  responses : ∀ id held, id ≠ [] → connection.responses.lookup id = some held →
    connection'.responses.lookup id = some held

theorem Keeps.refl (m : Nat) (connection : Connection I J) : Keeps m connection connection :=
  ⟨fun _ => rfl, fun h => ⟨h, rfl⟩, fun _ _ _ h => h⟩

theorem Answers.of_lookup {held held' : Option (ResponsesApiRequest (Option I) J)}
    {request : ResponsesApiRequest I J} {items : List I} (h : Answers held request items)
    (hkept : ∀ value, held = some value → held' = some value) : Answers held' request items := by
  obtain ⟨streamed, hheld, hitems⟩ := h
  exact ⟨streamed, hkept _ hheld, hitems⟩

theorem Sound.keeps {calls calls' : Nat → Option (Call I J)} {m : Nat} {call : Call I J}
    {connection connection' : Connection I J} (h : Sound calls m call connection)
    (hgrows : Grows calls calls') (hkeeps : Keeps m connection connection') :
    Sound calls' m call connection' where
  prepared := h.prepared.mono hgrows (.refl call)
  queued := h.queued
  streaming hholder := by
    obtain rfl := hkeeps.holder hholder
    exact h.streaming hholder
  gathered hholder := by
    obtain rfl := hkeeps.holder hholder
    exact h.gathered hholder
  extended last hlast haccepted := by
    obtain ⟨haccepted, hheld⟩ := hkeeps.lastAccepted haccepted
    rw [hheld]
    exact h.extended last hlast haccepted
  branched last hlast hid :=
    (h.branched last hlast hid).of_lookup fun value => hkeeps.responses _ value hid

/-! ## The invariant -/

structure Inv (s : State I J) : Prop where
  session : ∀ n, s.session.websocketLastResponseRx = some n → ∃ call, s.calls n = some call ∧
    s.session.websocketLastRequest = some call.request ∧
    s.session.connection = some call.connection
  calls : ∀ n call, s.calls n = some call → ∃ connection,
    s.connections call.connection = some connection ∧ Sound s.calls n call connection
  connections : ∀ c connection m, s.connections c = some connection →
    connection.holder = some m ∨ connection.lastAccepted = some m →
    ∃ call, s.calls m = some call ∧ call.connection = c ∧ call.queued = false
  received : ∀ p ∈ s.received, p.2 = some (p.1.answered [])

namespace Inv

variable {s : State I J}

theorem init : Inv (State.init : State I J) where
  session n h := by cases h
  calls n call h := by cases h
  connections c connection m h := by cases h
  received p h := by cases h

/-- The session forgets its channel. -/
theorem of_session (h : Inv s) {session : ModelClientSession I J} {disableWebsockets : Bool}
    (hsession : session.websocketLastResponseRx = none) :
    Inv { s with session, disableWebsockets } where
  session n hn := by
    rw [hsession] at hn
    cases hn
  calls := h.calls
  connections := h.connections
  received := h.received

theorem reset (h : Inv s) : Inv s.reset := h.of_session rfl

theorem connect (h : Inv s) {c : Nat} (hsession : s.session.websocketLastResponseRx = none)
    (hc : s.connections c = none) : Inv (s.connect c) where
  session n hn := by
    rw [State.connect, hsession] at hn
    cases hn
  calls n call hcall := by
    obtain ⟨connection, hconnection, hsound⟩ := h.calls n call hcall
    have hne : call.connection ≠ c := fun heq => by
      rw [heq, hc] at hconnection
      cases hconnection
    exact ⟨connection, (Function.update_of_ne hne ..).trans hconnection, hsound⟩
  connections c' connection m hconnection hm := by
    change Function.update s.connections c (some .new) c' = some connection at hconnection
    by_cases heq : c' = c
    · rw [heq, Function.update_self] at hconnection
      obtain rfl := Option.some.inj hconnection
      rcases hm with hm | hm <;> cases hm
    · rw [Function.update_of_ne heq] at hconnection
      exact h.connections c' connection m hconnection hm
  received := h.received

theorem trySwitchFallbackTransport (h : Inv s) (client : ModelClientState)
    (modelInfo : ModelInfo) : Inv (s.trySwitchFallbackTransport client modelInfo) := by
  unfold State.trySwitchFallbackTransport
  split
  · exact h.of_session rfl
  · exact h

theorem streamResponsesApi (h : Inv s) (request : ResponsesApiRequest I J) :
    Inv (s.streamResponsesApi request) where
  session := h.session
  calls := h.calls
  connections := h.connections
  received p hp := by
    rcases List.mem_append.1 hp with hp | hp
    · exact h.received p hp
    · rw [List.mem_singleton] at hp
      rw [hp]

theorem prepared [DecidableEq I] [DecidableEq J] (h : Inv s) {c : Nat} (v2 : Bool)
    (hsession : s.session.connection = some c) {call : Call I J} (hconnection : call.connection = c)
    (hprevious : call.previous = s.session.websocketLastResponseRx)
    (hsent : call.wsRequest = prepareWebsocketRequest v2 s.session.websocketLastRequest
      call.request s.getLastResponse) : Prepared s.calls call := by
  rcases prepareWebsocketRequest_cases v2 s.session.websocketLastRequest call.request
    s.getLastResponse with hfull | hincremental
  · exact .inl (hsent.trans hfull)
  · obtain ⟨previousRequest, last, appendItems, hrequest, hlast, happend, hsent'⟩ := hincremental
    obtain ⟨m, hm, hget⟩ := Option.bind_eq_some_iff.1 hlast
    obtain ⟨base, hbase, hresponse⟩ := Option.bind_eq_some_iff.1 hget
    obtain ⟨base', hbase', hrequest', hconnection'⟩ := h.session m hm
    obtain rfl := Option.some.inj (hbase.symm.trans hbase')
    obtain rfl := Option.some.inj (hrequest.symm.trans hrequest')
    refine .inr ⟨m, base, last, appendItems, hprevious.trans hm, hbase, ?_,
      StreamMap.outcome_of_lastResponse hresponse, happend, ?_⟩
    · rw [hconnection]
      exact Option.some.inj (hconnection'.symm.trans hsession)
    · rw [hsent]
      exact hsent'.imp id And.left

theorem streamRequest [DecidableEq I] [DecidableEq J] (h : Inv s) {n c : Nat}
    {connection : Connection I J} (hsession : s.session.connection = some c)
    (hconnection : s.connections c = some connection) (hn : s.calls n = none)
    (client : ModelClientState) (request : ResponsesApiRequest I J) :
    Inv (s.streamRequest client n c request) := by
  obtain ⟨call, hcall⟩ : ∃ call : Call I J, call =
      { connection := c
        request
        wsRequest := prepareWebsocketRequest client.enableResponsesWebsocketsV2
          s.session.websocketLastRequest request s.getLastResponse
        previous := s.session.websocketLastResponseRx
        queued := true
        streamMap := .new } := ⟨_, rfl⟩
  have hprepared : Prepared s.calls call := by
    refine h.prepared client.enableResponsesWebsocketsV2 hsession ?_ ?_ ?_ <;> rw [hcall]
  have hgrows : Grows s.calls (Function.update s.calls n (some call)) := .update fun base hbase => by
    rw [hn] at hbase
    cases hbase
  have hunused : ¬ (connection.holder = some n ∨ connection.lastAccepted = some n) := fun hused => by
    obtain ⟨used, hused, -⟩ := h.connections c connection n hconnection hused
    rw [hn] at hused
    cases hused
  rw [not_or] at hunused
  have hsound : Sound (Function.update s.calls n (some call)) n call connection := by
    have hnew : call.streamMap = .new := by rw [hcall]
    have houtcome : call.streamMap.outcome = none := by rw [hnew]; rfl
    refine ⟨hprepared.mono hgrows (.refl call), fun _ => ⟨houtcome, by rw [hnew]; rfl⟩,
      fun hholder => absurd hholder hunused.1, fun hholder => absurd hholder hunused.1,
      fun last hlast => ?_, fun last hlast => ?_⟩ <;>
    · rw [houtcome] at hlast
      cases hlast
  have hstream : s.streamRequest client n c request =
      { s with
        session := { s.session with
          websocketLastRequest := some request
          websocketLastResponseRx := some n }
        calls := Function.update s.calls n (some call) } := by rw [hcall]; rfl
  have hconnection' : call.connection = c := by rw [hcall]
  have hrequest : call.request = request := by rw [hcall]
  rw [hstream]
  refine ⟨fun m hm => ?_, fun m other hother => ?_, fun c' other m hother hm => ?_, h.received⟩
  · obtain rfl := Option.some.inj hm
    exact ⟨call, Function.update_self .., congrArg some hrequest.symm,
      hsession.trans (congrArg some hconnection'.symm)⟩
  · change Function.update s.calls n (some call) m = some other at hother
    by_cases heq : m = n
    · rw [heq, Function.update_self] at hother
      obtain rfl := Option.some.inj hother
      subst heq
      exact ⟨connection, by rw [hconnection']; exact hconnection, hsound⟩
    · rw [Function.update_of_ne heq] at hother
      obtain ⟨connection', hfound, hsound'⟩ := h.calls m other hother
      exact ⟨connection', hfound, hsound'.keeps hgrows (.refl m connection')⟩
  · obtain ⟨used, hused, hrest⟩ := h.connections c' other m hother hm
    have hne : m ≠ n := fun heq => by
      rw [heq, hn] at hused
      cases hused
    exact ⟨used, (Function.update_of_ne hne ..).trans hused, hrest⟩

theorem setCall (h : Inv s) {n : Nat} {call call' : Call I J}
    {connection connection' : Connection I J} (hcall : s.calls n = some call)
    (hconnection : s.connections call.connection = some connection)
    (hcontinues : call.Continues call') (hqueued : call'.queued = true → call.queued = true)
    (hsound : Sound s.calls n call' connection')
    (hkeeps : ∀ m, m ≠ n → Keeps m connection connection')
    (hholder : ∀ m, connection'.holder = some m ∨ connection'.lastAccepted = some m →
      m = n ∧ call'.queued = false ∨ connection.holder = some m ∨
        connection.lastAccepted = some m) :
    Inv (s.setCall n call' connection') := by
  have hgrows : Grows s.calls (Function.update s.calls n (some call')) := .update fun base hbase => by
    obtain rfl := Option.some.inj (hbase.symm.trans hcall)
    exact hcontinues
  have hsame := hcontinues.connection
  unfold State.setCall
  rw [hsame]
  refine ⟨fun m hm => ?_, fun m other hother => ?_, fun c other m hother hm => ?_, h.received⟩
  · obtain ⟨base, hbase, hrequest, hsession⟩ := h.session m hm
    obtain ⟨base', hbase', hbase_cont⟩ := hgrows m base hbase
    exact ⟨base', hbase', by rw [hbase_cont.request]; exact hrequest,
      by rw [hbase_cont.connection]; exact hsession⟩
  · change Function.update s.calls n (some call') m = some other at hother
    by_cases heq : m = n
    · rw [heq, Function.update_self] at hother
      obtain rfl := Option.some.inj hother
      subst heq
      exact ⟨connection', by rw [hsame]; exact Function.update_self ..,
        hsound.keeps hgrows (.refl m connection')⟩
    · rw [Function.update_of_ne heq] at hother
      obtain ⟨found, hfound, hsound'⟩ := h.calls m other hother
      by_cases hc : other.connection = call.connection
      · rw [hc] at hfound ⊢
        obtain rfl := Option.some.inj (hfound.symm.trans hconnection)
        exact ⟨connection', Function.update_self .., hsound'.keeps hgrows (hkeeps m heq)⟩
      · exact ⟨found, (Function.update_of_ne hc ..).trans hfound,
          hsound'.keeps hgrows (.refl m found)⟩
  · change Function.update s.connections call.connection (some connection') c = some other at hother
    have hold : ∀ known : Connection I J, s.connections c = some known →
        known.holder = some m ∨ known.lastAccepted = some m →
        ∃ call, Function.update s.calls n (some call') m = some call ∧ call.connection = c ∧
          call.queued = false := fun known hknown hm => by
      obtain ⟨used, hused, hc, hstarted⟩ := h.connections c known m hknown hm
      by_cases heq : m = n
      · subst heq
        obtain rfl := Option.some.inj (hused.symm.trans hcall)
        refine ⟨call', Function.update_self .., hsame.trans hc, ?_⟩
        cases hq : call'.queued with
        | false => rfl
        | true =>
          rw [hqueued hq] at hstarted
          cases hstarted
      · exact ⟨used, (Function.update_of_ne heq ..).trans hused, hc, hstarted⟩
    by_cases heq : c = call.connection
    · rw [heq, Function.update_self] at hother
      obtain rfl := Option.some.inj hother
      rcases hholder m hm with ⟨rfl, hstarted⟩ | hm'
      · exact ⟨call', Function.update_self .., hsame.trans heq.symm, hstarted⟩
      · exact hold connection (by rw [heq]; exact hconnection) hm'
    · rw [Function.update_of_ne heq] at hother
      exact hold other hother hm

end Inv

/-! ## What is sent -/

/-- What an incremental request goes on from. -/
def Connection.base (connection : Connection I J) :
    ResponsesWsRequest I J → Option (ResponsesApiRequest (Option I) J)
  | .responseCreate payload => payload.previousResponseId.bind fun id =>
      connection.responses.lookup id
  | .responseAppend _ => connection.held

/-- An appending request comes right after the one it extends, and the client has parsed every item
of what an incremental request goes on from. -/
structure Call.InOrder (call : Call I J) (connection : Connection I J) : Prop where
  parsed : ∀ base, connection.base call.wsRequest = some base → none ∉ base.input
  appended : ∀ input, call.wsRequest = .responseAppend input →
    connection.lastAccepted = call.previous

theorem Inv.reconstruct {s : State I J} (h : Inv s) {n : Nat} {call : Call I J}
    {connection : Connection I J} (hcall : s.calls n = some call)
    (hconnection : s.connections call.connection = some connection)
    (horder : call.InOrder connection) :
    connection.reconstruct call.wsRequest = some (call.request.answered []) := by
  obtain ⟨found, hfound, hsound⟩ := h.calls n call hcall
  obtain rfl := Option.some.inj (hfound.symm.trans hconnection)
  rcases hsound.prepared with hfull | ⟨m, base, last, appendItems, hm, hbase, hsame, hlast, hrequest,
    hsent⟩
  · rw [hfull]
    rfl
  obtain ⟨found', hfound', hbaseSound⟩ := h.calls m base hbase
  rw [hsame] at hfound'
  obtain rfl := Option.some.inj (hfound'.symm.trans hfound)
  obtain ⟨hparsed, happended⟩ := horder
  rcases hsent with ⟨hsent, hid⟩ | hsent
  · have hanswers := hbaseSound.branched last hlast hid
    rw [hsent] at hparsed ⊢
    cases hlookup : found'.responses.lookup last.responseId with
    | none =>
      obtain ⟨streamed, hheld, -⟩ := hlookup ▸ hanswers
      cases hheld
    | some held =>
      rw [hlookup] at hanswers
      have hheld := hanswers.append (hparsed held hlookup) appendItems
      rw [← hrequest] at hheld
      have hinput : held.input ++ appendItems.map some = call.request.input.map some ++ [] :=
        congrArg ResponsesApiRequest.input hheld
      simp only [Connection.reconstruct, hlookup, Option.map_some]
      rw [hinput]
      rfl
  · have hanswers := hbaseSound.extended last hlast ((happended _ hsent).trans hm)
    rw [hsent] at hparsed ⊢
    cases hheld : found'.held with
    | none =>
      obtain ⟨streamed, hnone, -⟩ := hheld ▸ hanswers
      cases hnone
    | some held =>
      rw [hheld] at hanswers
      have happend := hanswers.append (hparsed held hheld) appendItems
      rw [← hrequest] at happend
      simp only [Connection.reconstruct, hheld, Option.map_some]
      rw [happend]

/-! ## What is streamed -/

theorem lookup_complete {connection : Connection I J} {responseId : Str}
    {held : ResponsesApiRequest (Option I) J} (hheld : connection.held = some held) :
    (connection.complete responseId).responses.lookup responseId = some held := by
  simp [Connection.complete, hheld]

theorem Answers.stream {held : Option (ResponsesApiRequest (Option I) J)}
    {request : ResponsesApiRequest I J} {items : List I} (h : Answers held request items)
    (item : Option I) :
    Answers (held.map fun held => { held with input := held.input ++ [item] }) request
      (items ++ item.toList) := by
  obtain ⟨streamed, rfl, rfl⟩ := h
  refine ⟨streamed ++ [item], ?_, ?_⟩
  · simp [ResponsesApiRequest.answered]
  · rw [List.reduceOption_append, List.reduceOption_singleton]

/-- A response that goes on: the call holds what the server holds. -/
theorem Sound.of_open {calls : Nat → Option (Call I J)} {n : Nat} {call : Call I J}
    {connection : Connection I J} (hprepared : Prepared calls call) (hstarted : call.queued = false)
    (houtcome : call.streamMap.outcome = none)
    (hholder : connection.holder = some n → connection.lastAccepted = some n ∧
      Answers connection.held call.request call.streamMap.gathered) :
    Sound calls n call connection where
  prepared := hprepared
  queued h := by
    rw [hstarted] at h
    cases h
  streaming h := ⟨houtcome, (hholder h).1⟩
  gathered h := (hholder h).2
  extended last hlast := by
    rw [houtcome] at hlast
    cases hlast
  branched last hlast := by
    rw [houtcome] at hlast
    cases hlast

theorem Sound.of_complete {calls : Nat → Option (Call I J)} {n : Nat} {call : Call I J}
    {connection : Connection I J} {last : LastResponse I} (hprepared : Prepared calls call)
    (hstarted : call.queued = false) (houtcome : call.streamMap.outcome = some last)
    (hheld : Answers connection.held call.request last.itemsAdded) :
    Sound calls n call (connection.complete last.responseId) where
  prepared := hprepared
  queued h := by
    rw [hstarted] at h
    cases h
  streaming h := by cases h
  gathered h := by cases h
  extended last' hlast _ := by
    obtain rfl := Option.some.inj (houtcome.symm.trans hlast)
    exact hheld
  branched last' hlast _ := by
    obtain rfl := Option.some.inj (houtcome.symm.trans hlast)
    obtain ⟨streamed, hstreamed, hitems⟩ := hheld
    exact ⟨streamed, lookup_complete hstreamed, hitems⟩

theorem Sound.stream {calls : Nat → Option (Call I J)} {n : Nat} {call : Call I J}
    {connection : Connection I J} (h : Sound calls n call connection) {event : WireEvent I}
    (hholder : connection.holder = some n) (hstarted : call.queued = false) :
    Sound calls n (call.receive (processResponsesEvent event)) (connection.stream event) := by
  obtain ⟨houtcome, haccepted⟩ := h.streaming hholder
  have hheld := h.gathered hholder
  have hreceived := StreamMap.receive_outcome houtcome
  have hprepared : ∀ event, Prepared calls (call.receive event) := fun event =>
    h.prepared.mono (.refl calls)
      ⟨rfl, rfl, rfl, rfl, fun last hlast => by rw [houtcome] at hlast; cases hlast⟩
  have hgathered : ∀ event, (call.receive event).streamMap.gathered =
      call.streamMap.gathered ++ event.toList.filterMap ResponseEvent.item? := fun event =>
    call.streamMap.receive_gathered event.toList
  cases event with
  | outputItemDone item =>
    have hstreamed := hheld.stream item
    cases item with
    | none | some item =>
      refine .of_open (hprepared _) hstarted (hreceived _) fun _ => ⟨haccepted, ?_⟩
      rw [hgathered]
      exact hstreamed
  | responseCompleted id =>
    exact .of_complete (hprepared (some (.completed id false))) hstarted (hreceived _) hheld
  | responseDone id =>
    exact .of_complete (hprepared (some (.completed (id.getD []) true))) hstarted (hreceived _)
      hheld
  | failed => exact .of_open (hprepared _) hstarted (hreceived _) fun h => by cases h
  | other =>
    refine .of_open (hprepared _) hstarted (hreceived _) fun _ => ⟨haccepted, ?_⟩
    rw [hgathered]
    exact (List.append_nil call.streamMap.gathered).symm ▸ hheld

theorem keeps_complete {connection : Connection I J} {n m : Nat} {responseId : Str} (hne : m ≠ n)
    (haccepted : connection.lastAccepted = some n)
    (hid : responseId ≠ [] → connection.responses.lookup responseId = none) :
    Keeps m connection (connection.complete responseId) where
  holder h := by cases h
  lastAccepted h := absurd (Option.some.inj (haccepted.symm.trans h)).symm hne
  responses id held hnonempty hlookup := by
    have hdifferent : id ≠ responseId := fun heq => by
      subst heq
      rw [hid hnonempty] at hlookup
      cases hlookup
    cases hheld : connection.held with
    | none => simpa [Connection.complete, hheld] using hlookup
    | some value =>
      simpa [Connection.complete, hheld, List.lookup_cons, beq_eq_false_iff_ne.2 hdifferent]
        using hlookup

theorem keeps_stream {connection : Connection I J} {n m : Nat} {event : WireEvent I}
    (hne : m ≠ n) (hholder : connection.holder = some n)
    (haccepted : connection.lastAccepted = some n)
    (hid : ∀ id, event.completedId? = some id → id ≠ [] → connection.responses.lookup id = none) :
    Keeps m connection (connection.stream event) := by
  have hother : some n ≠ some m := fun h => hne (Option.some.inj h).symm
  cases event with
  | outputItemDone item =>
    exact ⟨fun h => absurd (hholder.symm.trans h) hother,
      fun h => absurd (haccepted.symm.trans h) hother, fun _ _ _ h => h⟩
  | responseCompleted id => exact keeps_complete hne haccepted (hid id rfl)
  | responseDone id => exact keeps_complete hne haccepted (hid (id.getD []) rfl)
  | failed =>
    exact ⟨fun h => (by cases h), fun h => ⟨h, rfl⟩, fun _ _ _ h => h⟩
  | other => exact .refl m connection

/-! ## The runs -/

/-- What the steps go well with. -/
def Orderly (s : State I J) : Action I J → Prop
  | .sent n => ∀ call connection, s.calls n = some call →
      s.connections call.connection = some connection → call.InOrder connection
  | _ => True

structure OrderlyStep [DecidableEq I] [DecidableEq J] (client : ModelClientState) (s : State I J) (action : Action I J)
    (s' : State I J) : Prop where
  step : Step client s action s'
  orderly : Orderly s action

/-- A step that only touches the stream of a call that is over, or of its reader. -/
theorem Inv.setStreamMap {s : State I J} (h : Inv s) {n : Nat} {call : Call I J}
    {connection : Connection I J} (hcall : s.calls n = some call)
    (hconnection : s.connections call.connection = some connection) {streamMap : StreamMap I}
    (houtcome : streamMap.outcome = call.streamMap.outcome)
    (hgathered : call.streamMap.outcome = none →
      streamMap.gathered = call.streamMap.gathered) :
    Inv (s.setCall n (call.setStreamMap streamMap) connection) := by
  obtain ⟨found, hfound, hsound⟩ := h.calls n call hcall
  obtain rfl := Option.some.inj (hfound.symm.trans hconnection)
  have hcontinues : call.Continues (call.setStreamMap streamMap) :=
    ⟨rfl, rfl, rfl, rfl, fun last hlast => houtcome.trans hlast⟩
  refine h.setCall hcall hfound hcontinues id ?_ (fun m _ => .refl m found) fun m hm => .inr hm
  refine ⟨hsound.prepared.mono (.refl s.calls) hcontinues, fun hqueued => ?_, fun hholder => ?_,
    fun hholder => ?_, fun last hlast => ?_, fun last hlast => ?_⟩
  · obtain ⟨hnone, hnil⟩ := hsound.queued hqueued
    exact ⟨houtcome.trans hnone, (hgathered hnone).trans hnil⟩
  · obtain ⟨hnone, haccepted⟩ := hsound.streaming hholder
    exact ⟨houtcome.trans hnone, haccepted⟩
  · have hnone := (hsound.streaming hholder).1
    change Answers found.held call.request streamMap.gathered
    rw [hgathered hnone]
    exact hsound.gathered hholder
  · exact hsound.extended last (houtcome.symm.trans hlast)
  · exact hsound.branched last (houtcome.symm.trans hlast)

/-- The task of a call has had the lock. -/
theorem Sound.start {calls : Nat → Option (Call I J)} {n : Nat} {call : Call I J}
    {connection : Connection I J} (h : Sound calls n call connection)
    (hqueued : call.queued = true) : Prepared calls call.start ∧
      call.start.streamMap.outcome = none ∧ call.start.streamMap.gathered = [] :=
  ⟨h.prepared.mono (.refl calls)
    ⟨rfl, rfl, rfl, rfl, fun _ hlast => hlast⟩, h.queued hqueued⟩

theorem Inv.failQueued {s : State I J} (h : Inv s) {n : Nat} {call : Call I J}
    {connection connection' : Connection I J} (hcall : s.calls n = some call)
    (hqueued : call.queued = true) (hconnection : s.connections call.connection = some connection)
    (hconnection' : connection' = connection ∨ connection' = connection.close) :
    Inv (s.setCall n (call.start.receive (some .failed)) connection') := by
  obtain ⟨found, hfound, hsound⟩ := h.calls n call hcall
  obtain rfl := Option.some.inj (hfound.symm.trans hconnection)
  obtain ⟨hprepared, houtcome, -⟩ := hsound.start hqueued
  have hfailed : (call.start.receive (some .failed)).streamMap.outcome = none :=
    StreamMap.receive_outcome houtcome [.failed]
  have hcontinues : call.Continues (call.start.receive (some .failed)) :=
    ⟨rfl, rfl, rfl, rfl, fun last hlast => by
      rw [(hsound.queued hqueued).1] at hlast
      cases hlast⟩
  have hunused : found.holder ≠ some n := fun hholder => by
    obtain ⟨used, hused, -, hstarted⟩ := h.connections _ found n hfound (.inl hholder)
    obtain rfl := Option.some.inj (hused.symm.trans hcall)
    rw [hqueued] at hstarted
    cases hstarted
  have hkept : connection'.holder ≠ some n ∧ (∀ m, Keeps m found connection') ∧
      ∀ m, connection'.holder = some m ∨ connection'.lastAccepted = some m →
        found.holder = some m ∨ found.lastAccepted = some m := by
    rcases hconnection' with rfl | rfl
    · exact ⟨hunused, fun m => .refl m connection', fun m hm => hm⟩
    · refine ⟨fun hm => (by cases hm), fun _ => ⟨fun hm => (by cases hm), fun hm => ⟨hm, rfl⟩,
        fun _ _ _ hm => hm⟩, fun m hm => ?_⟩
      exact hm.elim (fun hm => (by cases hm)) .inr
  obtain ⟨hholder, hkeeps, hold⟩ := hkept
  refine h.setCall hcall hfound hcontinues (fun hq => (by cases hq)) ?_ (fun m _ => hkeeps m)
    fun m hm => .inr (hold m hm)
  exact .of_open (hsound.prepared.mono (.refl s.calls) hcontinues) rfl hfailed fun hm =>
    absurd hm hholder

theorem Inv.send {s : State I J} (h : Inv s) {n : Nat} {call : Call I J}
    {connection : Connection I J} (hcall : s.calls n = some call) (hqueued : call.queued = true)
    (hconnection : s.connections call.connection = some connection)
    (horder : call.InOrder connection) :
    Inv (s.setCall n call.start (connection.send n call.wsRequest)) := by
  have hreconstruct := h.reconstruct hcall hconnection horder
  obtain ⟨found, hfound, hsound⟩ := h.calls n call hcall
  obtain rfl := Option.some.inj (hfound.symm.trans hconnection)
  obtain ⟨hprepared, houtcome, hgathered⟩ := hsound.start hqueued
  have hcontinues : call.Continues call.start := ⟨rfl, rfl, rfl, rfl, fun _ hlast => hlast⟩
  have hsend : found.send n call.wsRequest =
      { found with
        holder := some n
        lastAccepted := some n
        held := some (call.request.answered []) } := by
    rw [Connection.send, hreconstruct]
  rw [hsend]
  refine h.setCall hcall hfound hcontinues (fun hq => (by cases hq)) ?_ (fun m hne => ?_)
    fun m hm => ?_
  · refine .of_open hprepared rfl houtcome fun _ => ⟨rfl, ?_⟩
    rw [hgathered]
    exact .mk_nil
  · have hother : some n ≠ some m := fun heq => hne (Option.some.inj heq).symm
    exact ⟨fun hm => absurd hm hother, fun hm => absurd hm hother, fun _ _ _ hm => hm⟩
  · refine .inl ⟨?_, rfl⟩
    exact hm.elim (fun hm => (Option.some.inj hm).symm) fun hm => (Option.some.inj hm).symm

theorem Inv.stream {s : State I J} (h : Inv s) {n : Nat} {call : Call I J}
    {connection : Connection I J} {event : WireEvent I} (hcall : s.calls n = some call)
    (hconnection : s.connections call.connection = some connection)
    (hholder : connection.holder = some n)
    (hid : ∀ id, event.completedId? = some id → id ≠ [] → connection.responses.lookup id = none) :
    Inv (s.setCall n (call.receive (processResponsesEvent event)) (connection.stream event)) := by
  obtain ⟨found, hfound, hsound⟩ := h.calls n call hcall
  obtain rfl := Option.some.inj (hfound.symm.trans hconnection)
  obtain ⟨used, hused, -, hstarted⟩ := h.connections _ found n hfound (.inl hholder)
  obtain rfl := Option.some.inj (hused.symm.trans hcall)
  obtain ⟨houtcome, haccepted⟩ := hsound.streaming hholder
  have hcontinues : used.Continues (used.receive (processResponsesEvent event)) :=
    ⟨rfl, rfl, rfl, rfl, fun last hlast => by rw [houtcome] at hlast; cases hlast⟩
  refine h.setCall hcall hfound hcontinues id ?_
    (fun m hne => keeps_stream hne hholder haccepted hid) fun m hm => .inr ?_
  · exact hsound.stream hholder hstarted
  · cases event with
    | outputItemDone item => exact hm
    | responseCompleted id | responseDone id | failed => exact hm.elim (fun hm => (by cases hm)) .inr
    | other => exact hm

section Runs

variable [DecidableEq I] [DecidableEq J] {client : ModelClientState}

theorem Inv.step {s s' : State I J} {action : Action I J} (h : Inv s)
    (hstep : OrderlyStep client s action s') : Inv s' := by
  obtain ⟨hstep, horderly⟩ := hstep
  cases hstep with
  | streamed n args henabled hsession hconnection hopen hfree hn =>
    exact h.streamRequest hsession hconnection hn client _
  | connectedAndStreamed n c args henabled hneeds hc hn =>
    exact (h.reset.connect rfl hc).streamRequest rfl (Function.update_self ..) hn client _
  | connectFailed => exact h.reset
  | upgradeRequired => exact (h.reset.trySwitchFallbackTransport client _).streamResponsesApi _
  | streamedHttp => exact h.streamResponsesApi _
  | switchedFallback => exact h.trySwitchFallbackTransport client _
  | disabledWebsockets => exact ⟨h.session, h.calls, h.connections, h.received⟩
  | prewarmed henabled hsession hc =>
    refine h.connect ?_ hc
    cases hrx : s.session.websocketLastResponseRx with
    | none => rfl
    | some n =>
      obtain ⟨call, -, -, hconnection⟩ := h.session n hrx
      rw [hsession] at hconnection
      cases hconnection
  | sent n hcall hqueued hconnection hopen hfree =>
    have horder := horderly _ _ hcall hconnection
    have hsent := h.send hcall hqueued hconnection horder
    refine ⟨hsent.session, hsent.calls, hsent.connections, fun p hp => ?_⟩
    rcases List.mem_append.1 hp with hp | hp
    · exact h.received p hp
    · rw [List.mem_singleton] at hp
      rw [hp]
      exact h.reconstruct hcall hconnection horder
  | sendFailed hcall hqueued hconnection hopen hfree =>
    exact h.failQueued hcall hqueued hconnection (.inr rfl)
  | foundClosed hcall hqueued hconnection hclosed =>
    exact h.failQueued hcall hqueued hconnection (.inl rfl)
  | event n event hcall hconnection hholder haccepted hid => exact h.stream hcall hconnection hholder hid
  | handled n hcall hconnection hreturned hevents =>
    obtain ⟨houtcome, hgathered⟩ := StreamMap.handle_outcome hevents
    exact h.setStreamMap hcall hconnection houtcome hgathered
  | dropped n hcall hconnection => exact h.setStreamMap hcall hconnection rfl fun _ => rfl

/-- Where no request is appended to another, and no response has an item that does not parse when a
request goes on from it, the server reconstructs every request. -/
theorem reconstructed_of_run {s : State I J} {actions : List (Action I J)}
    (h : Run (OrderlyStep client) .init actions s) :
    ∀ p ∈ s.received, p.2 = some (p.1.answered []) :=
  (h.invariant (fun hinv hstep => hinv.step hstep) Inv.init).received

end Runs

theorem Call.InOrder.of_full {I J : Type} {call : Call I J} {connection : Connection I J}
    {request : ResponsesApiRequest I J} (h : call.wsRequest = .responseCreate (.from request)) :
    call.InOrder connection where
  parsed base hbase := by
    rw [h] at hbase
    cases hbase
  appended input hinput := by
    rw [h] at hinput
    cases hinput

/-- A client of the first version of the protocol, for the runs below. -/
def appendingClient : ModelClientState :=
  { conversationId := "1".toList
    isAzureResponsesEndpoint := false
    supportsWebsockets := true
    modelVerbosity := none
    enableResponsesWebsockets := true
    enableResponsesWebsocketsV2 := false }

def StreamArgs.ofInput (input : List Nat) : StreamArgs Nat Nat :=
  { prompt := ⟨input, [], false, [], none⟩
    modelInfo := ⟨"model".toList, false, none, false, none, false⟩
    effort := none
    summary := .auto }

/-- A request that is appended to the one it extends. -/
theorem reconstructed_of_run_append : ∃ actions, ∃ s : State Nat Nat,
    Run (OrderlyStep appendingClient) .init actions s ∧
    s.received.map (fun p => p.1.input) = [[1], [1, 5, 6]] ∧
    ∀ p ∈ s.received, p.2 = some (p.1.answered []) := by
  have hrun : Run (OrderlyStep appendingClient) (.init : State Nat Nat) _ _ :=
      .cons ⟨.connectedAndStreamed 0 0 (.ofInput [1]) ⟨rfl, rfl⟩ (fun _ h => by cases h) rfl rfl,
        trivial⟩ <|
      .cons ⟨.sent 0 rfl rfl rfl rfl rfl, fun _ _ h _ => by cases h; exact .of_full rfl⟩ <|
      .cons ⟨.event 0 (.outputItemDone (some 5)) rfl rfl rfl (.inr rfl) fun _ h => (by cases h),
        trivial⟩ <|
      .cons ⟨.event 0 (.responseDone none) rfl rfl rfl (.inr rfl)
        fun _ h hid => by cases h; exact absurd rfl hid, trivial⟩ <|
      .cons ⟨.handled 0 rfl rfl rfl rfl, trivial⟩ <|
      .cons ⟨.handled 0 rfl rfl rfl rfl, trivial⟩ <|
      .cons ⟨.streamed 1 (.ofInput [1, 5, 6]) ⟨rfl, rfl⟩ rfl rfl rfl rfl rfl, trivial⟩ <|
      .single ⟨.sent 1 rfl rfl rfl rfl rfl, fun _ _ h h' => by
        cases h
        cases h'
        exact ⟨fun _ h => by cases h; decide, fun _ _ => rfl⟩⟩
  exact ⟨_, _, hrun, rfl, reconstructed_of_run hrun⟩

/-- An abandoned request that is sent late: the next one is appended to it. -/
theorem appended_to_other : ∃ actions, ∃ s : State Nat Nat,
    Run (Step appendingClient) .init actions s ∧ ∃ p ∈ s.received, p.1.input = [2, 3] ∧
      p.2.map ResponsesApiRequest.input = some [some 1, some 3] :=
  ⟨_, _,
    .cons (.connectedAndStreamed 0 0 (.ofInput [1]) ⟨rfl, rfl⟩ (fun _ h => by cases h) rfl rfl) <|
    .cons (.dropped 0 rfl rfl) <|
    .cons (.streamed 1 (.ofInput [2]) ⟨rfl, rfl⟩ rfl rfl rfl rfl rfl) <|
    .cons (.sent 1 rfl rfl rfl rfl rfl) <|
    .cons (.event 1 (.responseDone none) rfl rfl rfl (.inr rfl)
      fun _ h hid => by cases h; exact absurd rfl hid) <|
    .cons (.handled 1 rfl rfl rfl rfl) <|
    .cons (.sent 0 rfl rfl rfl rfl rfl) <|
    .cons (.event 0 (.responseDone none) rfl rfl rfl (.inr rfl)
      fun _ h hid => by cases h; exact absurd rfl hid) <|
    .cons (.streamed 2 (.ofInput [2, 3]) ⟨rfl, rfl⟩ rfl rfl rfl rfl rfl) <|
    .single (.sent 2 rfl rfl rfl rfl rfl),
    _, List.mem_append_right _ (List.mem_singleton_self _), rfl, rfl⟩

end SheriMl.Client
