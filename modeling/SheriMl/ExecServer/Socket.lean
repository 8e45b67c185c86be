import SheriMl.Lib.Str
import SheriMl.Lib.Transition
import SheriMl.Lib.Wire

/-!
# The escalation socket

`AsyncSocket` of `exec-server/src/posix/socket.rs`: one end sends messages one after another with
`send_with_fds`, the other one calls `receive_with_fds` again and again. Each system call is a step.
A descriptor stands for what it refers to; its number at either end is the kernel's.
-/

namespace SheriMl.ExecServer

open Wire

inductive IoErrorKind where
  | unexpectedEof
  | writeZero
  | invalidInput
  | other

structure IoError where
  kind : IoErrorKind
  message : Str

/-- serde on a type of messages: `from_slice` reads what `to_vec` writes. -/
structure Codec (M : Type) where
  toVec : M → Except IoError (List UInt8)
  fromSlice : List UInt8 → Except IoError M
  fromSlice_of_toVec : ∀ {msg payload}, toVec msg = .ok payload → fromSlice payload = .ok msg

def maxFdsPerMessage : Nat := 16

def lengthPrefixSize : Nat := 4

variable {M φ : Type}

/-! ## Control messages -/

inductive ControlMessage (φ : Type) where
  /-- `SCM_RIGHTS` of `SOL_SOCKET` -/
  | rights (fds : List φ)
  | other

def ControlMessage.fds : ControlMessage φ → List φ
  | .rights fds => fds
  | .other => []

def extractFds (control : List (ControlMessage φ)) : List φ := control.flatMap ControlMessage.fds

def makeControlMessage (fds : List φ) : Except IoError (List (ControlMessage φ)) :=
  if fds.length > maxFdsPerMessage then
    .error ⟨.invalidInput, "too many fds: ".toList ++ Nat.toDigits 10 fds.length⟩
  else if fds.isEmpty then .ok []
  else .ok [.rights fds]

def encodeLength (len : Nat) : Except IoError (List UInt8) :=
  if len < 2 ^ 32 then .ok (toLeBytes lengthPrefixSize len)
  else .error ⟨.invalidInput, "message too large: ".toList ++ Nat.toDigits 10 len⟩

/-! ## Sending -/

/-- What `sendmsg` returns. -/
inductive Sent where
  | wouldBlock
  | wrote (bytesWritten : Nat)
  | err (err : IoError)

/-- `send_stream_frame` in progress. -/
structure Sending (φ : Type) where
  frame : List UInt8
  fds : List φ
  written : Nat
  includeFds : Bool

def sendWithFds (codec : Codec M) (msg : M) (fds : List φ) : Except IoError (Sending φ) := do
  let payload ← codec.toVec msg
  let length ← encodeLength payload.length
  pure ⟨length ++ payload, fds, 0, !fds.isEmpty⟩

/-- `send_stream_chunk`: what `sendmsg` is called with. -/
def Sending.chunk (s : Sending φ) : Except IoError (List UInt8 × List (ControlMessage φ)) :=
  (if s.includeFds then makeControlMessage s.fds else .ok []).map fun control =>
    (s.frame.drop s.written, control)

def Sending.onSent (s : Sending φ) : Sent → Except IoError (Sending φ)
  | .wouldBlock => .ok s
  | .err err => .error err
  | .wrote bytesWritten =>
    if bytesWritten = 0 then
      .error ⟨.writeZero, "socket closed while sending frame payload".toList⟩
    else .ok { s with written := s.written + bytesWritten, includeFds := false }

/-! ## Receiving -/

/-- What `recvmsg` or `recv` returns. -/
inductive Read (φ : Type) where
  | wouldBlock
  | read (bytes : List UInt8) (control : List (ControlMessage φ))
  | err (err : IoError)

/-- `read_frame` in progress: in the header, with the control messages once they are captured, or in
the payload. -/
inductive Receiving (φ : Type) where
  | header (filled : List UInt8) (control : Option (List (ControlMessage φ)))
  | payload (messageLen : Nat) (filled : List UInt8) (fds : List φ)

inductive Progress (M φ : Type) where
  | pending (receiving : Receiving φ)
  | returned (result : Except IoError (M × List φ))

namespace Receiving

def start : Receiving φ := .header [] none

/-- The length of the buffer that is passed on. -/
def room : Receiving φ → Nat
  | .header filled _ => lengthPrefixSize - filled.length
  | .payload messageLen filled _ => messageLen - filled.length

/-- The call is a `recvmsg`. -/
def readsControl : Receiving φ → Bool
  | .header _ none => true
  | .header _ (some _) | .payload _ _ _ => false

/-- The end of `receive_with_fds`. -/
def finish (codec : Codec M) (payload : List UInt8) (fds : List φ) : Progress M φ :=
  .returned ((codec.fromSlice payload).map fun msg => (msg, fds))

def readFramePayload (codec : Codec M) (messageLen : Nat) (fds : List φ) : Progress M φ :=
  if messageLen = 0 then finish codec [] fds else .pending (.payload messageLen [] fds)

def onRead (codec : Codec M) : Receiving φ → Read φ → Progress M φ
  | receiving, .wouldBlock => .pending receiving
  | _, .err err => .returned (.error err)
  | .header filled control, .read bytes received =>
    if bytes = [] then
      .returned (.error ⟨.unexpectedEof, "socket closed while receiving frame header".toList⟩)
    else
      let filled := filled ++ bytes
      -- captured by the first receive
      let control := control.getD received
      if filled.length = lengthPrefixSize then
        readFramePayload codec (fromLeBytes filled) (extractFds control)
      else .pending (.header filled (some control))
  | .payload messageLen filled fds, .read bytes _ =>
    if bytes = [] then
      .returned (.error ⟨.unexpectedEof, "socket closed while receiving frame payload".toList⟩)
    else
      let filled := filled ++ bytes
      if filled.length = messageLen then finish codec filled fds
      else .pending (.payload messageLen filled fds)

end Receiving

/-! ## The connection -/

/-- `sendmsg`: any part of the chunk goes, the descriptors with its first byte. -/
inductive Sendmsg (chunk : List UInt8) (control : List (ControlMessage φ))
    (stream : Cells UInt8 φ) : Sent → Cells UInt8 φ → Prop
  | wouldBlock : Sendmsg chunk control stream .wouldBlock stream
  | wrote {n : Nat} : n ≤ chunk.length →
      Sendmsg chunk control stream (.wrote n)
        (stream ++ attach (chunk.take n) (extractFds control))
  | err (err : IoError) : Sendmsg chunk control stream (.err err) stream

/-- As many descriptors as the control buffer is for. -/
def controlOf (got : Cells UInt8 φ) : List (ControlMessage φ) :=
  let fds := (attached got).take maxFdsPerMessage
  if fds.isEmpty then [] else [.rights fds]

/-- `recvmsg`, or a `recv`, which drops the descriptors: any part of the stream comes, as far as the
buffer goes. It does not block when the peer has closed. -/
inductive Recvmsg (withControl : Bool) (room : Nat) (closed : Prop) :
    Cells UInt8 φ → Read φ → Cells UInt8 φ → Prop
  | wouldBlock {stream : Cells UInt8 φ} : ¬(closed ∧ stream = []) →
      Recvmsg withControl room closed stream .wouldBlock stream
  | read {got rest : Cells UInt8 φ} : got ≠ [] → got.length ≤ room →
      Recvmsg withControl room closed (got ++ rest)
        (.read (bytes got) (if withControl then controlOf got else [])) rest
  | eof : closed → Recvmsg withControl room closed [] (.read [] []) []
  | err (err : IoError) : closed → Recvmsg withControl room closed [] (.err err) []

/-- The sender, at a message or between two. A failed one sends no more. -/
inductive Sender (φ : Type) where
  | idle
  | sending (sending : Sending φ)
  | failed
  | closed

structure Conn (M φ : Type) where
  /-- The messages whose turn is still to come. -/
  outbox : List (M × List φ)
  sender : Sender φ
  stream : Cells UInt8 φ
  receiving : Receiving φ
  /-- What `receive_with_fds` has returned. -/
  received : List (Except IoError (M × List φ))

namespace Conn

def start (outbox : List (M × List φ)) : Conn M φ := ⟨outbox, .idle, [], .start, []⟩

def closed (c : Conn M φ) : Prop := c.sender = .closed

def receive (c : Conn M φ) (stream : Cells UInt8 φ) : Progress M φ → Conn M φ
  | .pending receiving => { c with stream := stream, receiving := receiving }
  | .returned result =>
    { c with stream := stream, receiving := .start, received := c.received ++ [result] }

end Conn

inductive Move (φ : Type) where
  | send
  | sendmsg (sent : Sent)
  | sent
  | close
  | read (read : Read φ)

inductive Step (codec : Codec M) : Conn M φ → Move φ → Conn M φ → Prop
  | send {c : Conn M φ} {msg fds outbox sending} : c.sender = .idle →
      c.outbox = (msg, fds) :: outbox → sendWithFds codec msg fds = .ok sending →
      Step codec c .send { c with outbox := outbox, sender := .sending sending }
  | sendFailed {c : Conn M φ} {msg fds outbox err} : c.sender = .idle →
      c.outbox = (msg, fds) :: outbox → sendWithFds codec msg fds = .error err →
      Step codec c .send { c with sender := .failed }
  | sendmsg {c : Conn M φ} {sending sending' : Sending φ} {chunk control sent stream'} :
      c.sender = .sending sending → sending.written < sending.frame.length →
      sending.chunk = .ok (chunk, control) → Sendmsg chunk control c.stream sent stream' →
      sending.onSent sent = .ok sending' →
      Step codec c (.sendmsg sent) { c with sender := .sending sending', stream := stream' }
  | sendmsgFailed {c : Conn M φ} {sending : Sending φ} {chunk control sent stream' err} :
      c.sender = .sending sending → sending.written < sending.frame.length →
      sending.chunk = .ok (chunk, control) → Sendmsg chunk control c.stream sent stream' →
      sending.onSent sent = .error err →
      Step codec c (.sendmsg sent) { c with sender := .failed, stream := stream' }
  | chunkFailed {c : Conn M φ} {sending : Sending φ} {err} :
      c.sender = .sending sending → sending.written < sending.frame.length →
      sending.chunk = .error err → Step codec c (.sendmsg (.err err)) { c with sender := .failed }
  | sent {c : Conn M φ} {sending : Sending φ} : c.sender = .sending sending →
      ¬sending.written < sending.frame.length → Step codec c .sent { c with sender := .idle }
  | close {c : Conn M φ} : Step codec c .close { c with sender := .closed }
  | read {c : Conn M φ} {read stream'} :
      Recvmsg c.receiving.readsControl c.receiving.room c.closed c.stream read stream' →
      Step codec c (.read read) (c.receive stream' (c.receiving.onRead codec read))

end SheriMl.ExecServer
