/-
`send` and `receive` of nl-filesys.c between a process and a child it has spawned: both
ends of the socket pair as processes that take the steps of `readWriteSocket`.
-/
import NewLispNeo.Pack

namespace NewLispNeo

namespace Message

inductive Side where
  | parent
  | child
deriving DecidableEq

def Side.other : Side → Side
  | parent => child
  | child => parent

/-- The primitive that has called `readWriteSocket`. -/
inductive Call where
  | send
  | receive
deriving DecidableEq

/-- How far `readWriteSocket` has come: the header and then the text are to be sent, or
the header is to be received and then the text behind it. -/
inductive Activity where
  | idle
  | sending (text : List UInt8)
  | sendingText (text : List UInt8)
  | receiving (call : Call)
  | receivingText (call : Call) (length : ℕ) (buffer : List UInt8)
deriving DecidableEq

/-- What a call returns: true for a text that has been sent, nil, or a message that has
been read; or it raises the error of the reader. -/
inductive Reply (ε : Type) where
  | sent (text : List UInt8)
  | nil (call : Call)
  | message (call : Call) (text : List UInt8) (cell : Cell)
  | raised (call : Call) (text : List UInt8) (error : ε)

/-- One end: what its process does, the bytes that have come for it, whether it has been
closed, and of its past the bytes put into the stream and taken out of it, and what the
calls have returned. -/
structure Endpoint (ε : Type) where
  activity : Activity
  inbox : List UInt8
  closed : Bool
  written : List UInt8
  taken : List UInt8
  replies : List (Reply ε)

abbrev Link (ε : Type) := Side → Endpoint ε

variable {ε : Type}

/-- A socket pair that has just been made. -/
def start : Link ε := fun _ => ⟨.idle, [], false, [], [], []⟩

/-- What `send` answers: the number of bytes it has accepted, or -1. -/
inductive SendAnswer where
  | accepted (size : ℕ)
  | failed
deriving DecidableEq

/-- What `recv` answers: the number of bytes it has delivered, 0 at the end of the
stream, or -1. -/
inductive RecvAnswer where
  | delivered (size : ℕ)
  | ended
  | failed
deriving DecidableEq

/-- A stream accepts any number of bytes as long as the other end is open. -/
def SendAnswer.Possible (s : Link ε) (x : Side) (size : ℕ) : SendAnswer → Prop
  | .accepted n => n ≤ size ∧ (s x.other).closed = false
  | .failed => True

/-- A stream delivers any number of the bytes that are in it, and ends where it is empty
and the other end is closed. -/
def RecvAnswer.Possible (s : Link ε) (x : Side) (size : ℕ) : RecvAnswer → Prop
  | .delivered n => 0 < n ∧ n ≤ size ∧ n ≤ (s x).inbox.length
  | .ended => (s x).inbox = [] ∧ (s x.other).closed = true
  | .failed => True

/-- Bytes go into the stream. -/
def write (x : Side) (bytes : List UInt8) (s : Link ε) : Link ε :=
  Function.update
    (Function.update s x { s x with written := (s x).written ++ bytes })
    x.other { s x.other with inbox := (s x.other).inbox ++ bytes }

/-- Bytes come out of the stream. -/
def take (x : Side) (size : ℕ) (s : Link ε) : Link ε :=
  Function.update s x
    { s x with
      inbox := (s x).inbox.drop size
      taken := (s x).taken ++ (s x).inbox.take size }

def become (x : Side) (activity : Activity) (s : Link ε) : Link ε :=
  Function.update s x { s x with activity := activity }

/-- `return` from the call. -/
def reply (x : Side) (r : Reply ε) (s : Link ε) : Link ε :=
  Function.update s x { s x with activity := .idle, replies := (s x).replies ++ [r] }

variable (m : Pack.Machine) (sysEvalString : List UInt8 → Except ε (Option Cell))

/-- The length of a text goes first.  When not all of it is accepted, control falls
through to the part of `readWriteSocket` that receives. -/
def sendHeader (x : Side) (text : List UInt8) (answer : SendAnswer) (s : Link ε) : Link ε :=
  match answer with
  | .accepted size =>
      write x ((m.store 8 text.length).take size) s
        |> become x (if size = 8 then .sendingText text else .receiving .send)
  | .failed => become x (.receiving .send) s

def sendText (x : Side) (text : List UInt8) (answer : SendAnswer) (s : Link ε) : Link ε :=
  match answer with
  | .accepted size =>
      write x (text.take size) s
        |> reply x (if size = text.length then .sent text else .nil .send)
  | .failed => reply x (.nil .send) s

def recvHeader (x : Side) (call : Call) (answer : RecvAnswer) (s : Link ε) : Link ε :=
  match answer with
  | .delivered size =>
      let length := m.load ((s x).inbox.take size)
      if size = 8 then take x size s |> become x (.receivingText call length [])
      else take x size s |> reply x (.nil call)
  | .ended | .failed => reply x (.nil call) s

/-- One pass of the loop on `bytesReceived`.  At the end of the stream it has received
nothing and goes on. -/
def recvText (x : Side) (call : Call) (length : ℕ) (buffer : List UInt8)
    (answer : RecvAnswer) (s : Link ε) : Link ε :=
  match answer with
  | .delivered size =>
      take x size s |> become x (.receivingText call length (buffer ++ (s x).inbox.take size))
  | .ended => s
  | .failed => reply x (.nil call) s

/-- The text is read; where it holds no expression `sysEvalString` returns `nilCell`. -/
def finishReceive (x : Side) (call : Call) (text : List UInt8) (s : Link ε) : Link ε :=
  match sysEvalString text with
  | .ok (some cell) => reply x (.message call text cell) s
  | .ok none => reply x (.nil call) s
  | .error e => reply x (.raised call text e) s

/-- The steps of one end. -/
inductive Event where
  | refuse
  | begin (text : List UInt8)
  | sendHeader (answer : SendAnswer)
  | sendText (answer : SendAnswer)
  | startReceive
  | notReady
  | recvHeader (answer : RecvAnswer)
  | recvText (answer : RecvAnswer)
  | finish
  | close
deriving DecidableEq

/-- One step of the process at the end `x`.  `p_send` finds its socket not ready, or
evaluates and prints its message; `select` may answer either way before each call. -/
inductive Step (s : Link ε) (x : Side) : Event → Link ε → Prop
  | refuse : (s x).closed = false → (s x).activity = .idle →
      Step s x .refuse (reply x (.nil .send) s)
  | begin {text : List UInt8} : (s x).closed = false → (s x).activity = .idle →
      text.length < 2 ^ 64 → Step s x (.begin text) (become x (.sending text) s)
  | sendHeader {text : List UInt8} {answer : SendAnswer} : (s x).closed = false →
      (s x).activity = .sending text → answer.Possible s x 8 →
      Step s x (.sendHeader answer) (sendHeader m x text answer s)
  | sendText {text : List UInt8} {answer : SendAnswer} : (s x).closed = false →
      (s x).activity = .sendingText text → answer.Possible s x text.length →
      Step s x (.sendText answer) (sendText x text answer s)
  | startReceive : (s x).closed = false → (s x).activity = .idle →
      Step s x .startReceive (become x (.receiving .receive) s)
  | notReady {call : Call} : (s x).closed = false → (s x).activity = .receiving call →
      Step s x .notReady (reply x (.nil call) s)
  | recvHeader {call : Call} {answer : RecvAnswer} : (s x).closed = false →
      (s x).activity = .receiving call → answer.Possible s x 8 →
      Step s x (.recvHeader answer) (recvHeader m x call answer s)
  | recvText {call : Call} {length : ℕ} {buffer : List UInt8} {answer : RecvAnswer} :
      (s x).closed = false → (s x).activity = .receivingText call length buffer →
      buffer.length < length → answer.Possible s x (length - buffer.length) →
      Step s x (.recvText answer) (recvText x call length buffer answer s)
  | finish {call : Call} {length : ℕ} {buffer : List UInt8} : (s x).closed = false →
      (s x).activity = .receivingText call length buffer → length ≤ buffer.length →
      Step s x .finish (finishReceive sysEvalString x call buffer s)
  | close : (s x).closed = false →
      Step s x .close (Function.update s x { s x with closed := true })

/-- A run of both ends in any order, with the link, the end and the event of each step. -/
inductive Run : List (Link ε × Side × Event) → Link ε → Prop
  | start : Run [] start
  | step {steps : List (Link ε × Side × Event)} {s s' : Link ε} {x : Side} {e : Event} :
      Run steps s → Step m sysEvalString s x e s' → Run (steps ++ [(s, x, e)]) s'

/-- A call at the end `x` returns, or its end is closed, after finitely many steps of its
own, each of which it can take. -/
inductive Returns (x : Side) : Link ε → Prop
  | done {s : Link ε} : (s x).activity = .idle ∨ (s x).closed = true → Returns x s
  | step {s : Link ε} : (∃ e s', e ≠ Event.close ∧ Step m sysEvalString s x e s') →
      (∀ e s', Step m sysEvalString s x e s' → Returns x s') → Returns x s

/-- The texts whose `send` has returned true. -/
def sentTexts (replies : List (Reply ε)) : List (List UInt8) :=
  replies.filterMap fun
    | .sent text => some text
    | _ => none

/-- The messages that `receive` has returned, as text and as cells. -/
def obtained (replies : List (Reply ε)) : List (List UInt8 × Cell) :=
  replies.filterMap fun
    | .message .receive text cell => some (text, cell)
    | _ => none

end Message

end NewLispNeo
