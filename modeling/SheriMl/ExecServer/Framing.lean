import SheriMl.ExecServer.Socket
import SheriMl.Lib.Result

/-!
# The framing is lossless

`received_of_run`: whatever part of the data each system call transfers, the receiver returns the
messages that were sent, in order and each with its own descriptors, and then only errors, once the
peer has closed.
-/

namespace SheriMl.ExecServer

open Wire Transition

variable {M φ : Type} {codec : Codec M}

/-! ## Messages -/

/-- A message that can be sent. -/
structure Sendable (codec : Codec M) (φ : Type) where
  msg : M
  fds : List φ
  payload : List UInt8
  toVec_eq : codec.toVec msg = .ok payload
  length_lt : payload.length < 2 ^ 32
  fds_le : fds.length ≤ maxFdsPerMessage

namespace Sendable

variable (m : Sendable codec φ)

def call : M × List φ := (m.msg, m.fds)

def header : List UInt8 := toLeBytes lengthPrefixSize m.payload.length

def frame : List UInt8 := m.header ++ m.payload

/-- What is written for the message. -/
def wire : Cells UInt8 φ := attach m.frame m.fds

def sending : Sending φ := ⟨m.frame, m.fds, 0, !m.fds.isEmpty⟩

theorem length_header : m.header.length = lengthPrefixSize := length_toLeBytes ..

theorem header_ne_nil : m.header ≠ [] := by
  intro h
  have hlen := m.length_header
  rw [h] at hlen
  exact absurd hlen (by decide)

theorem fromLeBytes_header : fromLeBytes m.header = m.payload.length :=
  fromLeBytes_toLeBytes m.length_lt

theorem sendWithFds_eq : sendWithFds codec m.msg m.fds = .ok m.sending := by
  have hlength : encodeLength m.payload.length = .ok m.header := if_pos m.length_lt
  simp only [sendWithFds, m.toVec_eq, bind, Except.bind, hlength]
  rfl

theorem wire_eq : m.wire = attach m.header m.fds ++ plain m.payload :=
  attach_append m.header_ne_nil ..

theorem wire_ne_nil : m.wire ≠ [] := by
  intro h
  have hlen := congrArg List.length h
  rw [wire, length_attach, frame, List.length_append, length_header] at hlen
  exact absurd hlen (by simp [lengthPrefixSize])

theorem finish_eq : Receiving.finish codec m.payload m.fds = .returned (.ok m.call) := by
  rw [Receiving.finish, codec.fromSlice_of_toVec m.toVec_eq]
  rfl

end Sendable

def wires (ms : List (Sendable codec φ)) : Cells UInt8 φ := ms.flatMap Sendable.wire

@[simp] theorem wires_nil : wires ([] : List (Sendable codec φ)) = [] := rfl

@[simp] theorem wires_cons (m : Sendable codec φ) (ms : List (Sendable codec φ)) :
    wires (m :: ms) = m.wire ++ wires ms := rfl

theorem wires_eq_nil {ms : List (Sendable codec φ)} (h : wires ms = []) : ms = [] := by
  cases ms with
  | nil => rfl
  | cons m ms => exact absurd (List.append_eq_nil_iff.1 h).1 m.wire_ne_nil

/-! ## The receiver -/

/-- The receiver is to return the messages, of which this is still to be read. -/
inductive Awaits : Receiving φ → List (Sendable codec φ) → Cells UInt8 φ → Prop
  | start {todo : List (Sendable codec φ)} : Awaits .start todo (wires todo)
  | header {m : Sendable codec φ} {todo} {filled later : List UInt8}
      {control : List (ControlMessage φ)} :
      filled ++ later = m.header → later ≠ [] → extractFds control = m.fds →
      Awaits (.header filled (some control)) (m :: todo) (plain (later ++ m.payload) ++ wires todo)
  | payload {m : Sendable codec φ} {todo} {filled later : List UInt8} :
      filled ++ later = m.payload → later ≠ [] →
      Awaits (.payload m.payload.length filled m.fds) (m :: todo) (plain later ++ wires todo)

theorem extractFds_controlOf {got : Cells UInt8 φ}
    (h : (attached got).length ≤ maxFdsPerMessage) : extractFds (controlOf got) = attached got := by
  have htake : (attached got).take maxFdsPerMessage = attached got := List.take_of_length_le h
  simp only [controlOf, htake]
  split
  · next hempty => exact (List.isEmpty_iff.1 hempty).symm
  · exact List.append_nil _

/-- The receiver goes on with the messages, or it returns the first of them. -/
inductive Goes : Progress M φ → List (Sendable codec φ) → Cells UInt8 φ → Prop
  | pending {receiving : Receiving φ} {todo : List (Sendable codec φ)} {ahead} :
      Awaits receiving todo ahead → Goes (.pending receiving) todo ahead
  | returned {m : Sendable codec φ} {todo} :
      Goes (.returned (.ok m.call)) (m :: todo) (wires todo)

theorem goes_header {m : Sendable codec φ} {todo : List (Sendable codec φ)}
    {filled bytes later : List UInt8} {control : Option (List (ControlMessage φ))}
    {received : List (ControlMessage φ)} (hheader : filled ++ bytes ++ later = m.header)
    (hbytes : bytes ≠ []) (hfds : extractFds (control.getD received) = m.fds) :
    Goes ((Receiving.header filled control).onRead codec (.read bytes received)) (m :: todo)
      (plain (later ++ m.payload) ++ wires todo) := by
  have hlen : (filled ++ bytes).length + later.length = lengthPrefixSize := by
    rw [← List.length_append, hheader, m.length_header]
  simp only [Receiving.onRead, if_neg hbytes]
  split
  · next hfull =>
    have hlater : later = [] := List.length_eq_zero_iff.1 (by omega)
    subst hlater
    rw [List.append_nil] at hheader
    rw [hheader, hfds, m.fromLeBytes_header, Receiving.readFramePayload]
    split
    · next hzero =>
      have hpayload : m.payload = [] := List.length_eq_zero_iff.1 hzero
      have hfinish := m.finish_eq
      rw [hpayload] at hfinish ⊢
      rw [hfinish]
      exact .returned
    · next hpos =>
      exact .pending (.payload rfl fun hnil => hpos (List.length_eq_zero_iff.2 hnil))
  · next hshort =>
    refine .pending (.header hheader (fun hnil => hshort ?_) hfds)
    rw [hnil] at hlen
    exact hlen

theorem goes_payload {m : Sendable codec φ} {todo : List (Sendable codec φ)}
    {filled bytes later : List UInt8} {received : List (ControlMessage φ)}
    (hpayload : filled ++ bytes ++ later = m.payload) (hbytes : bytes ≠ []) :
    Goes ((Receiving.payload m.payload.length filled m.fds).onRead codec (.read bytes received))
      (m :: todo) (plain later ++ wires todo) := by
  have hlen : (filled ++ bytes).length + later.length = m.payload.length := by
    rw [← List.length_append, hpayload]
  simp only [Receiving.onRead, if_neg hbytes]
  split
  · next hfull =>
    have hlater : later = [] := List.length_eq_zero_iff.1 (by omega)
    subst hlater
    rw [List.append_nil] at hpayload
    rw [hpayload, m.finish_eq]
    exact .returned
  · next hshort =>
    refine .pending (.payload hpayload fun hnil => hshort ?_)
    rw [hnil] at hlen
    exact hlen

/-- What a read does that takes some of the data. -/
theorem Awaits.onRead {receiving : Receiving φ} {todo : List (Sendable codec φ)}
    {got ahead : Cells UInt8 φ} (h : Awaits receiving todo (got ++ ahead)) (hgot : got ≠ [])
    (hroom : got.length ≤ receiving.room) :
    Goes (receiving.onRead codec
      (.read (bytes got) (if receiving.readsControl then controlOf got else []))) todo ahead := by
  generalize hcells : got ++ ahead = cells at h
  cases h with
  | start =>
    cases todo with
    | nil => exact absurd (List.append_eq_nil_iff.1 hcells).1 hgot
    | cons m todo =>
      rw [wires_cons, m.wire_eq, List.append_assoc] at hcells
      have hle : got.length ≤ m.header.length := by
        rw [m.length_header]
        exact hroom
      obtain ⟨first, later, hheader, hfirst, rfl, rfl⟩ := append_eq_attach hcells hgot hle
      have hattached : attached (attach first m.fds) = m.fds := attached_attach hfirst _
      rw [bytes_attach, ← List.append_assoc, ← plain_append]
      have hheader' : [] ++ first ++ later = m.header := hheader.symm
      refine goes_header hheader' hfirst ?_
      refine (extractFds_controlOf ?_).trans hattached
      rw [hattached]
      exact m.fds_le
  | @header m todo filled later control hheader hlater hfds =>
    rw [plain_append, ← attach_nil later, List.append_assoc] at hcells
    have hlen : filled.length + later.length = lengthPrefixSize := by
      rw [← List.length_append, hheader, m.length_header]
    have hle : got.length ≤ later.length := by
      simp only [Receiving.room] at hroom
      omega
    obtain ⟨first, later', hlater', hfirst, rfl, rfl⟩ := append_eq_attach hcells hgot hle
    rw [bytes_attach, ← List.append_assoc, ← plain_append]
    refine goes_header ?_ hfirst hfds
    rw [List.append_assoc, ← hlater', hheader]
  | @payload m todo filled later hpayload hlater =>
    rw [← attach_nil later] at hcells
    have hlen : filled.length + later.length = m.payload.length := by
      rw [← List.length_append, hpayload]
    have hle : got.length ≤ later.length := by
      simp only [Receiving.room] at hroom
      omega
    obtain ⟨first, later', hlater', hfirst, rfl, rfl⟩ := append_eq_attach hcells hgot hle
    rw [bytes_attach]
    exact goes_payload (by rw [List.append_assoc, ← hlater', hpayload]) hfirst

theorem Awaits.append {receiving : Receiving φ} {todo : List (Sendable codec φ)}
    {ahead : Cells UInt8 φ} (h : Awaits receiving todo ahead) (m : Sendable codec φ) :
    Awaits receiving (todo ++ [m]) (ahead ++ m.wire) := by
  have hwires (todo : List (Sendable codec φ)) : wires todo ++ m.wire = wires (todo ++ [m]) := by
    simp [wires]
  cases h with
  | start =>
    rw [hwires]
    exact .start
  | header hheader hlater hfds =>
    rw [List.append_assoc, hwires]
    exact .header hheader hlater hfds
  | payload hpayload hlater =>
    rw [List.append_assoc, hwires]
    exact .payload hpayload hlater

theorem Awaits.eq_nil {receiving : Receiving φ} {todo : List (Sendable codec φ)}
    (h : Awaits receiving todo []) : todo = [] := by
  generalize hnil : ([] : Cells UInt8 φ) = ahead at h
  cases h with
  | start => exact wires_eq_nil hnil.symm
  | header _ hlater _ =>
    have hplain := plain_eq_nil.1 (List.append_eq_nil_iff.1 hnil.symm).1
    exact absurd (List.append_eq_nil_iff.1 hplain).1 hlater
  | payload _ hlater =>
    exact absurd (plain_eq_nil.1 (List.append_eq_nil_iff.1 hnil.symm).1) hlater

variable (codec) in
theorem onRead_eof (receiving : Receiving φ) (control : List (ControlMessage φ)) :
    ∃ err, receiving.onRead codec (.read [] control) = .returned (.error err) := by
  cases receiving with
  | header | payload =>
    simp only [Receiving.onRead, if_pos]
    exact ⟨_, rfl⟩

/-! ## The sender -/

/-- What is still to be written of a frame, unless it is given up. -/
def Unsent : Sender φ → Cells UInt8 φ → Prop
  | .idle, unsent => unsent = []
  | .sending s, unsent => s.fds.length ≤ maxFdsPerMessage ∧
    unsent = attach (s.frame.drop s.written) (if s.includeFds then s.fds else [])
  | .failed, _ | .closed, _ => True

theorem extractFds_makeControlMessage {fds : List φ} {control : List (ControlMessage φ)}
    (h : makeControlMessage fds = .ok control) : extractFds control = fds := by
  rw [makeControlMessage] at h
  split at h
  · cases h
  · split at h
    · next hempty =>
      cases h
      exact (List.isEmpty_iff.1 hempty).symm
    · cases h
      exact List.append_nil _

theorem chunk_eq_ok {s : Sending φ} {chunk : List UInt8} {control : List (ControlMessage φ)}
    (h : s.chunk = .ok (chunk, control)) :
    chunk = s.frame.drop s.written ∧
      extractFds control = if s.includeFds then s.fds else [] := by
  obtain ⟨control', hcontrol, hpair⟩ := Result.exists_of_map_eq_ok h
  cases hpair
  refine ⟨rfl, ?_⟩
  split at hcontrol
  · next hinclude =>
    rw [if_pos hinclude]
    exact extractFds_makeControlMessage hcontrol
  · next hinclude =>
    rw [if_neg hinclude]
    cases hcontrol
    rfl

theorem onSent_wrote_eq_ok {s s' : Sending φ} {n : Nat} (h : s.onSent (.wrote n) = .ok s') :
    n ≠ 0 ∧ s' = { s with written := s.written + n, includeFds := false } := by
  rw [Sending.onSent] at h
  split at h
  · cases h
  · next hpos => exact ⟨hpos, (Except.ok.inj h).symm⟩

theorem onSent_wrote_eq_error {s : Sending φ} {n : Nat} {err : IoError}
    (h : s.onSent (.wrote n) = .error err) : n = 0 := by
  rw [Sending.onSent] at h
  split at h
  · assumption
  · cases h

theorem Sendable.unsent_sending (m : Sendable codec φ) : Unsent (.sending m.sending) m.wire := by
  refine ⟨m.fds_le, ?_⟩
  change m.wire = attach m.frame (if !m.fds.isEmpty then m.fds else [])
  cases hfds : m.fds with
  | nil => rw [Sendable.wire, hfds]; rfl
  | cons fd fds => rw [Sendable.wire, hfds]; rfl

/-- A part of the chunk is written, the descriptors with it. -/
theorem unsent_wrote {s s' : Sending φ} {chunk : List UInt8} {control : List (ControlMessage φ)}
    {n : Nat} {unsent : Cells UInt8 φ} (hunsent : Unsent (.sending s) unsent)
    (hchunk : s.chunk = .ok (chunk, control)) (hn : n ≤ chunk.length)
    (hsent : s.onSent (.wrote n) = .ok s') :
    ∃ unsent', Unsent (.sending s') unsent' ∧
      unsent = attach (chunk.take n) (extractFds control) ++ unsent' := by
  obtain ⟨rfl, hfds⟩ := chunk_eq_ok hchunk
  obtain ⟨hpos, rfl⟩ := onSent_wrote_eq_ok hsent
  have htake : (s.frame.drop s.written).take n ≠ [] := by
    intro hnil
    have hlen := congrArg List.length hnil
    rw [List.length_take, Nat.min_eq_left hn] at hlen
    exact hpos hlen
  refine ⟨plain (s.frame.drop (s.written + n)), ⟨hunsent.1, (attach_nil _).symm⟩, ?_⟩
  rw [hfds, ← List.drop_drop, ← attach_append htake, List.take_append_drop]
  exact hunsent.2

/-! ## The connection -/

/-- The messages of `done` are received, those of `todo` are on their way and those of `rest` are
still to be sent; or the receiver has come upon the end of the stream. -/
inductive Delivers (ms : List (Sendable codec φ)) (c : Conn M φ) : Prop
  | going {done todo rest : List (Sendable codec φ)} {unsent : Cells UInt8 φ} :
      ms = done ++ (todo ++ rest) → c.outbox = rest.map Sendable.call →
      c.received = done.map (fun m => .ok m.call) → Unsent c.sender unsent →
      Awaits c.receiving todo (c.stream ++ unsent) → Delivers ms c
  | ended {done lost : List (Sendable codec φ)} {errs : List IoError} :
      ms = done ++ lost → c.closed → c.stream = [] → c.receiving = .start →
      c.received = done.map (fun m => .ok m.call) ++ errs.map .error → Delivers ms c

theorem delivers_start (ms : List (Sendable codec φ)) :
    Delivers ms (Conn.start (ms.map Sendable.call)) :=
  .going (show ms = [] ++ ([] ++ ms) from rfl) rfl rfl (show Unsent .idle [] from rfl) .start

theorem exists_call_eq {rest : List (Sendable codec φ)} {msg : M} {fds : List φ}
    {outbox : List (M × List φ)} (h : (msg, fds) :: outbox = rest.map Sendable.call) :
    ∃ (m : Sendable codec φ) (rest' : List (Sendable codec φ)), rest = m :: rest' ∧ msg = m.msg ∧
      fds = m.fds ∧ outbox = rest'.map Sendable.call := by
  cases rest with
  | nil => cases h
  | cons m rest' =>
    obtain ⟨hcall, houtbox⟩ := List.cons.inj h
    cases hcall
    exact ⟨m, rest', rfl, rfl, rfl, houtbox⟩

theorem delivers_receive {ms done todo rest : List (Sendable codec φ)} {c : Conn M φ}
    {stream unsent : Cells UInt8 φ} {progress : Progress M φ} (hms : ms = done ++ (todo ++ rest))
    (houtbox : c.outbox = rest.map Sendable.call)
    (hreceived : c.received = done.map (fun m => .ok m.call)) (hunsent : Unsent c.sender unsent)
    (hgoes : Goes progress todo (stream ++ unsent)) : Delivers ms (c.receive stream progress) := by
  generalize hahead : stream ++ unsent = ahead at hgoes
  cases hgoes with
  | pending hawaits =>
    subst hahead
    exact .going hms houtbox hreceived hunsent hawaits
  | @returned m todo =>
    have hms' : ms = (done ++ [m]) ++ (todo ++ rest) := by simpa using hms
    have hreceived' : c.received ++ [.ok m.call] =
        (done ++ [m]).map fun m => Except.ok m.call := by
      rw [hreceived, List.map_append]
      rfl
    refine .going hms' houtbox hreceived' hunsent ?_
    change Awaits .start todo (stream ++ unsent)
    rw [hahead]
    exact .start

/-- An error after the end of the stream. -/
theorem delivers_error {ms done lost : List (Sendable codec φ)} {c : Conn M φ} {errs : List IoError}
    (hms : ms = done ++ lost) (hclosed : c.closed)
    (hreceived : c.received = done.map (fun m => .ok m.call) ++ errs.map .error) (err : IoError) :
    Delivers ms (c.receive [] (.returned (.error err))) := by
  have hreceived' : c.received ++ [.error err] =
      done.map (fun m => .ok m.call) ++ (errs ++ [err]).map .error := by
    rw [hreceived, List.map_append, List.append_assoc]
    rfl
  exact .ended hms hclosed rfl rfl hreceived'

theorem Delivers.step {ms : List (Sendable codec φ)} {c c' : Conn M φ} {move : Move φ}
    (hc : Delivers ms c) (h : Step codec c move c') : Delivers ms c' := by
  cases hc with
  | @ended done lost errs hms hclosed hstream hreceiving hreceived =>
    cases h with
    | close => exact .ended hms rfl hstream hreceiving hreceived
    | @read read stream' hread =>
      rw [hstream] at hread
      generalize hnil : ([] : Cells UInt8 φ) = stream at hread
      cases hread with
      | wouldBlock hopen => exact absurd ⟨hclosed, hnil.symm⟩ hopen
      | read hgot => exact absurd (List.append_eq_nil_iff.1 hnil.symm).1 hgot
      | eof =>
        obtain ⟨err, herr⟩ := onRead_eof codec c.receiving []
        rw [herr]
        exact delivers_error hms hclosed hreceived err
      | err err => exact delivers_error hms hclosed hreceived err
    | send hsender | sendFailed hsender | sendmsg hsender | sendmsgFailed hsender
    | chunkFailed hsender | sent hsender => cases hclosed.symm.trans hsender
  | @going done todo rest unsent hms houtbox hreceived hunsent hawaits =>
    cases h with
    | send hidle hnext hsend =>
      obtain ⟨m, rest', rfl, rfl, rfl, houtbox'⟩ := exists_call_eq (hnext.symm.trans houtbox)
      rw [m.sendWithFds_eq] at hsend
      cases hsend
      rw [hidle] at hunsent
      cases hunsent
      have hms' : ms = done ++ ((todo ++ [m]) ++ rest') := by
        rw [List.append_assoc]
        exact hms
      rw [List.append_nil] at hawaits
      exact .going hms' houtbox' hreceived m.unsent_sending (hawaits.append m)
    | sendFailed hidle hnext hsend =>
      obtain ⟨m, rest', rfl, rfl, rfl, -⟩ := exists_call_eq (hnext.symm.trans houtbox)
      rw [m.sendWithFds_eq] at hsend
      cases hsend
    | close | chunkFailed => exact .going hms houtbox hreceived trivial hawaits
    | sent hsending hdone =>
      rw [hsending] at hunsent
      have hrest : unsent = [] := by
        rw [hunsent.2, List.drop_eq_nil_of_le (Nat.le_of_not_lt hdone)]
        rfl
      exact .going hms houtbox hreceived hrest hawaits
    | sendmsg hsending _ hchunk hwrite hsent =>
      rw [hsending] at hunsent
      cases hwrite with
      | wouldBlock =>
        cases hsent
        exact .going hms houtbox hreceived hunsent hawaits
      | wrote hn =>
        obtain ⟨unsent', hunsent', rfl⟩ := unsent_wrote hunsent hchunk hn hsent
        refine .going hms houtbox hreceived hunsent' ?_
        rw [List.append_assoc]
        exact hawaits
      | err => cases hsent
    | sendmsgFailed hsending _ hchunk hwrite hsent =>
      cases hwrite with
      | wouldBlock => cases hsent
      | err => exact .going hms houtbox hreceived trivial hawaits
      | @wrote n hn =>
        obtain rfl := onSent_wrote_eq_error hsent
        have hstream (fds : List φ) : c.stream ++ attach [] fds = c.stream := List.append_nil _
        rw [List.take_zero, hstream]
        exact .going hms houtbox hreceived trivial hawaits
    | @read read stream' hread =>
      have hreceived' : c.received =
          done.map (fun m => .ok m.call) ++ ([] : List IoError).map .error := by
        rw [hreceived]
        exact (List.append_nil _).symm
      generalize hstream : c.stream = stream at hread hawaits
      cases hread with
      | wouldBlock => exact .going hms houtbox hreceived hunsent hawaits
      | @read got ahead hgot hroom =>
        rw [List.append_assoc] at hawaits
        exact delivers_receive hms houtbox hreceived hunsent (hawaits.onRead hgot hroom)
      | eof hclosed =>
        obtain ⟨err, herr⟩ := onRead_eof codec c.receiving []
        rw [herr]
        exact delivers_error hms hclosed hreceived' err
      | err err hclosed => exact delivers_error hms hclosed hreceived' err

theorem Delivers.of_run {ms : List (Sendable codec φ)} {ls : List (Move φ)} {c : Conn M φ}
    (h : Run (Step codec) (Conn.start (ms.map Sendable.call)) ls c) : Delivers ms c :=
  h.invariant (I := fun c : Conn M φ => Delivers ms c) (fun hc hstep => hc.step hstep)
    (delivers_start ms)

theorem Delivers.received_eq {ms : List (Sendable codec φ)} {c : Conn M φ} (h : Delivers ms c) :
    ∃ n errs, c.received = (ms.take n).map (fun m => .ok m.call) ++ errs.map .error ∧
      (errs ≠ [] → c.closed ∧ c.stream = []) := by
  cases h with
  | @going done _ _ _ hms _ hreceived =>
    refine ⟨done.length, [], ?_, fun hne => absurd rfl hne⟩
    rw [hms, List.take_left', hreceived]
    · exact (List.append_nil _).symm
    · rfl
  | @ended done _ errs hms hclosed hstream _ hreceived =>
    refine ⟨done.length, errs, ?_, fun _ => ⟨hclosed, hstream⟩⟩
    rw [hms, List.take_left', hreceived]
    rfl

/-- When everything is sent and read, every message is received. -/
theorem Delivers.complete {ms : List (Sendable codec φ)} {c : Conn M φ} (h : Delivers ms c)
    (hsender : c.sender = .idle) (houtbox : c.outbox = []) (hstream : c.stream = []) :
    c.received = ms.map fun m => .ok m.call := by
  cases h with
  | @going done todo rest _ hms hrest hreceived hunsent hawaits =>
    rw [hsender] at hunsent
    cases hunsent
    rw [hstream] at hawaits
    have htodo : todo = [] := hawaits.eq_nil
    have hnil : rest = [] := List.map_eq_nil_iff.1 (hrest.symm.trans houtbox)
    rw [hreceived, hms, htodo, hnil, List.append_nil, List.append_nil]
  | ended _ hclosed => cases hclosed.symm.trans hsender

/-! ## Nothing gets stuck -/

theorem chunk_eq {s : Sending φ} (h : s.fds.length ≤ maxFdsPerMessage) :
    ∃ control, s.chunk = .ok (s.frame.drop s.written, control) := by
  have hcontrol : ∃ control : List (ControlMessage φ), makeControlMessage s.fds = .ok control := by
    rw [makeControlMessage, if_neg (Nat.not_lt.2 h)]
    split
    · exact ⟨_, rfl⟩
    · exact ⟨_, rfl⟩
  obtain ⟨control, hcontrol⟩ := hcontrol
  rw [Sending.chunk, hcontrol]
  split
  · exact ⟨control, rfl⟩
  · exact ⟨[], rfl⟩

variable (codec) in
/-- The rest of a frame can go at once. -/
theorem exists_sent {c : Conn M φ} {s : Sending φ} (hsender : c.sender = .sending s)
    (hfds : s.fds.length ≤ maxFdsPerMessage) :
    ∃ ls stream', Run (Step codec) c ls { c with sender := .idle, stream := stream' } := by
  by_cases hwritten : s.written < s.frame.length
  · obtain ⟨control, hchunk⟩ := chunk_eq hfds
    have hlen : (s.frame.drop s.written).length = s.frame.length - s.written := List.length_drop
    have hpos : s.frame.length - s.written ≠ 0 := by omega
    have hsent : s.onSent (.wrote (s.frame.length - s.written)) =
        .ok { s with written := s.written + (s.frame.length - s.written), includeFds := false } :=
      if_neg hpos
    refine ⟨_, _, .cons (.sendmsg hsender hwritten hchunk (.wrote hlen.ge) hsent) <|
      .single (.sent rfl ?_)⟩
    change ¬s.written + (s.frame.length - s.written) < s.frame.length
    omega
  · exact ⟨_, c.stream, .single (.sent hsender hwritten)⟩

/-- All the messages can be sent. -/
theorem exists_flushed {rest : List (Sendable codec φ)} {c : Conn M φ} (hsender : c.sender = .idle)
    (houtbox : c.outbox = rest.map Sendable.call) :
    ∃ ls c', Run (Step codec) c ls c' ∧ c'.sender = .idle ∧ c'.outbox = [] := by
  induction rest generalizing c with
  | nil => exact ⟨[], c, .nil c, hsender, houtbox⟩
  | cons m rest ih =>
    have hsend : Step codec c .send
        { c with outbox := rest.map Sendable.call, sender := .sending m.sending } :=
      .send hsender houtbox m.sendWithFds_eq
    obtain ⟨ls, stream', hsent⟩ := exists_sent codec
      (c := { c with outbox := rest.map Sendable.call, sender := .sending m.sending }) rfl m.fds_le
    obtain ⟨ls', c', hrun, hc'⟩ := ih
      (c := { c with outbox := rest.map Sendable.call, sender := .idle, stream := stream' }) rfl rfl
    exact ⟨_, c', .cons hsend (hsent.append hrun), hc'⟩

theorem Awaits.room_pos {receiving : Receiving φ} {todo : List (Sendable codec φ)}
    {ahead : Cells UInt8 φ} (h : Awaits receiving todo ahead) : 0 < receiving.room := by
  cases h with
  | start => exact Nat.zero_lt_succ _
  | @header m _ filled later _ hheader hlater =>
    have hlen := congrArg List.length hheader
    rw [List.length_append, m.length_header] at hlen
    have hpos := List.length_pos_iff.2 hlater
    simp only [Receiving.room]
    omega
  | @payload m _ filled later hpayload hlater =>
    have hlen := congrArg List.length hpayload
    rw [List.length_append] at hlen
    have hpos := List.length_pos_iff.2 hlater
    simp only [Receiving.room]
    omega

section Receive

variable (c : Conn M φ) (stream : Cells UInt8 φ) (progress : Progress M φ)

@[simp] theorem Conn.receive_sender : (c.receive stream progress).sender = c.sender := by
  cases progress <;> rfl

@[simp] theorem Conn.receive_outbox : (c.receive stream progress).outbox = c.outbox := by
  cases progress <;> rfl

@[simp] theorem Conn.receive_stream : (c.receive stream progress).stream = stream := by
  cases progress <;> rfl

end Receive

/-- All that is sent can be read, a byte at a time. -/
theorem exists_drained {ms : List (Sendable codec φ)} {stream : Cells UInt8 φ} {c : Conn M φ}
    (hc : Delivers ms c) (hsender : c.sender = .idle) (houtbox : c.outbox = [])
    (hstream : c.stream = stream) :
    ∃ ls c', Run (Step codec) c ls c' ∧ Delivers ms c' ∧ c'.sender = .idle ∧ c'.outbox = [] ∧
      c'.stream = [] := by
  induction stream generalizing c with
  | nil => exact ⟨[], c, .nil c, hc, hsender, houtbox, hstream⟩
  | cons cell rest ih =>
    have hroom : 0 < c.receiving.room := by
      cases hc with
      | going _ _ _ _ hawaits => exact hawaits.room_pos
      | ended _ hclosed => cases hclosed.symm.trans hsender
    have hread : Recvmsg c.receiving.readsControl c.receiving.room c.closed ([cell] ++ rest)
        (.read (bytes [cell]) (if c.receiving.readsControl then controlOf [cell] else [])) rest :=
      .read (List.cons_ne_nil _ _) hroom
    rw [List.singleton_append, ← hstream] at hread
    have hstep : Step codec c _ _ := .read hread
    obtain ⟨ls, c', hrun, hc'⟩ := ih (hc.step hstep) (by simpa using hsender)
      (by simpa using houtbox) (by simp)
    exact ⟨_, c', .cons hstep hrun, hc'⟩

/-- A sender that has neither failed nor closed can go on until everything is received. -/
theorem Delivers.exists_complete {ms : List (Sendable codec φ)} {c : Conn M φ} (hc : Delivers ms c)
    (hfailed : c.sender ≠ .failed) (hopen : ¬c.closed) :
    ∃ ls c', Run (Step codec) c ls c' ∧ c'.received = ms.map fun m => .ok m.call := by
  have hidle : ∃ ls stream',
      Run (Step codec) c ls { c with sender := .idle, stream := stream' } := by
    cases hsender : c.sender with
    | idle =>
      refine ⟨[], c.stream, ?_⟩
      rw [← hsender]
      exact .nil c
    | sending s =>
      cases hc with
      | going _ _ _ hunsent _ =>
        rw [hsender] at hunsent
        exact exists_sent codec hsender hunsent.1
      | ended _ hclosed => exact absurd hclosed hopen
    | failed => exact absurd hsender hfailed
    | closed => exact absurd hsender hopen
  obtain ⟨ls, stream', hrun⟩ := hidle
  have hrest : ∃ rest : List (Sendable codec φ), c.outbox = rest.map Sendable.call := by
    cases hc with
    | going _ houtbox => exact ⟨_, houtbox⟩
    | ended _ hclosed => exact absurd hclosed hopen
  obtain ⟨rest, houtbox⟩ := hrest
  obtain ⟨ls', c', hrun', hsender', houtbox'⟩ := exists_flushed
    (c := { c with sender := .idle, stream := stream' }) rfl houtbox
  have hdelivers : Delivers ms c' := (hrun.append hrun').invariant
    (I := fun c : Conn M φ => Delivers ms c) (fun hc hstep => hc.step hstep) hc
  obtain ⟨ls'', c'', hrun'', hc'', hsender'', houtbox'', hstream''⟩ :=
    exists_drained hdelivers hsender' houtbox' rfl
  exact ⟨_, c'', (hrun.append hrun').append hrun'', hc''.complete hsender'' houtbox'' hstream''⟩

/-- A receive on the drained stream of a peer that has closed returns an error. -/
theorem received_of_closed {c c' : Conn M φ} {read : Read φ} (h : Step codec c (.read read) c')
    (hclosed : c.closed) (hstream : c.stream = []) :
    ∃ err, c'.received = c.received ++ [.error err] := by
  cases h with
  | @read _ stream' hread =>
    rw [hstream] at hread
    generalize hnil : ([] : Cells UInt8 φ) = stream at hread
    cases hread with
    | wouldBlock hopen => exact absurd ⟨hclosed, hnil.symm⟩ hopen
    | read hgot => exact absurd (List.append_eq_nil_iff.1 hnil.symm).1 hgot
    | eof =>
      obtain ⟨err, herr⟩ := onRead_eof codec c.receiving []
      rw [herr]
      exact ⟨err, rfl⟩
    | err err => exact ⟨err, rfl⟩

/-- However the system calls transfer the data: the receiver returns the first of the messages, in
order and with their descriptors, and errors only at the end of a stream whose sender has closed;
it returns them all when all is sent and read, and as long as the sender has neither failed nor
closed this can still be reached. -/
theorem received_of_run {ms : List (Sendable codec φ)} {ls : List (Move φ)} {c : Conn M φ}
    (h : Run (Step codec) (Conn.start (ms.map Sendable.call)) ls c) :
    (∃ n errs, c.received = (ms.take n).map (fun m => .ok m.call) ++ errs.map .error ∧
      (errs ≠ [] → c.closed ∧ c.stream = [])) ∧
    (c.sender = .idle → c.outbox = [] → c.stream = [] →
      c.received = ms.map fun m => .ok m.call) ∧
    (c.sender ≠ .failed → ¬c.closed →
      ∃ ls' c', Run (Step codec) c ls' c' ∧ c'.received = ms.map fun m => .ok m.call) ∧
    (c.closed → c.stream = [] → ∀ read c', Step codec c (.read read) c' →
      ∃ err, c'.received = c.received ++ [.error err]) :=
  ⟨(Delivers.of_run h).received_eq, (Delivers.of_run h).complete,
    (Delivers.of_run h).exists_complete,
    fun hclosed hstream _ _ hread => received_of_closed hread hclosed hstream⟩

/-- Messages that are bytes already. -/
private def byteCodec : Codec (List UInt8) := ⟨.ok, .ok, fun h => h ▸ rfl⟩

private def pipes : Sendable byteCodec Nat := ⟨[7], [3, 4], [7], rfl, by decide, by decide⟩

private theorem step_read {c : Conn (List UInt8) Nat} (got : Cells UInt8 Nat)
    {rest : Cells UInt8 Nat} (hstream : c.stream = got ++ rest) (hgot : got ≠ []) (hroom : got.length ≤ c.receiving.room) :
    ∃ read, Step byteCodec c (.read read) (c.receive rest (c.receiving.onRead byteCodec
      (.read (bytes got) (if c.receiving.readsControl then controlOf got else [])))) := by
  have hread : Recvmsg c.receiving.readsControl c.receiving.room c.closed (got ++ rest) _ rest :=
    .read hgot hroom
  rw [← hstream] at hread
  exact ⟨_, .read hread⟩

/-- The header comes in two parts, of which the first has the descriptors. -/
theorem received_of_run_split : ∃ ls c,
    Run (Step byteCodec) (Conn.start ([pipes].map Sendable.call)) ls c ∧
      c.received = [.ok ([7], [3, 4])] := by
  have hfirst : ∃ read, Step byteCodec
      ⟨[], .sending ⟨pipes.frame, [3, 4], 3, false⟩, [(1, [3, 4]), (0, []), (0, [])], .start, []⟩
      (.read read) ⟨[], .sending ⟨pipes.frame, [3, 4], 3, false⟩, [(0, []), (0, [])],
        .header [1] (some [.rights [3, 4]]), []⟩ :=
    step_read [(1, [3, 4])] rfl (by decide) (by decide)
  have hheader : ∃ read, Step byteCodec
      ⟨[], .idle, [(0, []), (0, []), (0, []), (7, [])], .header [1] (some [.rights [3, 4]]), []⟩
      (.read read) ⟨[], .idle, [(7, [])], .payload 1 [] [3, 4], []⟩ :=
    step_read [(0, []), (0, []), (0, [])] rfl (by decide) (by decide)
  have hpayload : ∃ read, Step byteCodec
      ⟨[], .idle, [(7, [])], .payload 1 [] [3, 4], []⟩
      (.read read) ⟨[], .idle, [], .start, [.ok ([7], [3, 4])]⟩ :=
    step_read [(7, [])] rfl (by decide) (by decide)
  obtain ⟨read, hfirst⟩ := hfirst
  obtain ⟨read', hheader⟩ := hheader
  obtain ⟨read'', hpayload⟩ := hpayload
  have hrun : Run (Step byteCodec) (Conn.start ([pipes].map Sendable.call))
      [.send, .sendmsg .wouldBlock, .sendmsg (.wrote 3), .read read, .sendmsg (.wrote 2), .sent,
        .read read', .read read''] ⟨[], .idle, [], .start, [.ok ([7], [3, 4])]⟩ :=
    .cons (.send rfl rfl rfl) <|
    .cons (.sendmsg rfl (by decide) rfl .wouldBlock rfl) <|
    .cons (.sendmsg rfl (by decide) rfl (.wrote (by decide)) rfl) <|
    .cons hfirst <|
    .cons (.sendmsg rfl (by decide) rfl (.wrote (by decide)) rfl) <|
    .cons (.sent rfl (by decide)) <|
    .cons hheader <|
    .cons hpayload <|
    .nil _
  exact ⟨_, _, hrun, (received_of_run hrun).2.1 rfl rfl rfl⟩

end SheriMl.ExecServer
