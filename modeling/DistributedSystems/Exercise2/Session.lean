import DistributedSystems.Lab.Lib.Lines
import DistributedSystems.Support.CString
import DistributedSystems.Support.Runs

/-!
# An echo session (`Exercise2/client.c`, `Exercise2/server.c`)

The client reads lines, sends each and reads as many bytes back; it leaves its loop after the line
EXIT. The server sends back what each `recv` gives it, and leaves its loop when that compares equal
to EXIT over the bytes received. The connection is one stream of bytes each way: a `write` adds a
part of what is left to send, and a `read` or `recv` takes any part of what has arrived.

`readLine` of `Exercise2/read_line.c` is the one of `lib/lines.c`.
-/

namespace DistributedSystems.Exercise2

open Support Fs Lab

abbrev bufferSize : Nat := 256

/-- The characters of `"EXIT"`. -/
def exitWord : Bytes := cstring "EXIT"

/-- A line that is typed: not empty, and read whole. -/
structure Line where
  text : Bytes
  nonempty : text ≠ []
  fits : text.length < bufferSize
  plain : Plain text
deriving DecidableEq

/-- What the client does next. -/
inductive ClientStage
  | reading
  /-- In `send_msg`, with these bytes left. -/
  | sending (left : Bytes)
  /-- In `recv_msg`, with these bytes in `message_rec`. -/
  | receiving (got : Bytes)
  | done
deriving DecidableEq

structure Client where
  stage : ClientStage
  message : Buffer bufferSize
  n : Nat
deriving DecidableEq

/-- What the server's thread does next. -/
inductive ServerStage
  | receiving
  /-- In `send_msg`, with these bytes left. -/
  | sending (left : Bytes)
  | done
deriving DecidableEq

structure Server where
  stage : ServerStage
  message : Buffer bufferSize
deriving DecidableEq

/-- `up` goes to the server and `down` to the client. -/
structure State where
  client : Client
  server : Server
  up : Bytes
  down : Bytes
deriving DecidableEq

/-! ## The client -/

namespace Client

variable (c : Client)

/-- `n = readLine(0, message, BUFFER_SIZE)`, with the line on the standard input. -/
def readLine (line : Line) : Client :=
  let read := Lab.readLine bufferSize c.message (received line.text ++ [.byte newline])
  if read.numBytes = -1 then { c with message := read.buffer }
  else ⟨.sending (read.buffer.bytes.take read.numBytes.toNat), read.buffer, read.numBytes.toNat⟩

/-- A `write` of `send_msg` has left these bytes. After the last one the client leaves its loop or
goes on with `recv_msg`. -/
def wrote (left : Bytes) : Client :=
  if left ≠ [] then { c with stage := .sending left }
  else if strncmpEq nul 5 c.message.bytes (exitWord ++ [nul]) then { c with stage := .done }
  else { c with stage := .receiving [] }

/-- A `read` of `recv_msg` has made these bytes of `message_rec`. -/
def read (got : Bytes) : Client :=
  if got.length < c.n then { c with stage := .receiving got } else { c with stage := .reading }

end Client

/-! ## The server -/

/-- The array after bytes have been received into it. -/
def loaded (message : Buffer bufferSize) (segment : Bytes) : Buffer bufferSize :=
  ⟨overwrite (segment.take bufferSize) message.bytes, by
    have hle : (segment.take bufferSize).length ≤ message.bytes.length := by
      rw [message.length_bytes, List.length_take]
      exact Nat.min_le_left _ _
    rw [length_overwrite hle, message.length_bytes]⟩

namespace Server

variable (v : Server)

/-- `recv` has returned these bytes. -/
def recv (segment : Bytes) : Server :=
  let message := loaded v.message segment
  let numberReceived := segment.length
  if strncmpEq nul numberReceived message.bytes (exitWord ++ [nul]) then ⟨.done, message⟩
  else ⟨.sending (message.bytes.take numberReceived), message⟩

/-- A `write` of `send_msg` has left these bytes. -/
def wrote (left : Bytes) : Server :=
  if left ≠ [] then { v with stage := .sending left } else { v with stage := .receiving }

end Server

/-! ## Steps -/

inductive Event
  /-- A line has been typed and the client reads it. -/
  | readLine (line : Line)
  /-- A `write` of the client takes `r` bytes. -/
  | clientWrite (r : Nat)
  /-- A `read` of the client gives `r` bytes, none if the server has closed the connection. -/
  | clientRead (r : Nat)
  /-- `recv` gives `r` bytes, none if the client has closed the connection. -/
  | recv (r : Nat)
  /-- A `write` of the server takes `r` bytes. -/
  | serverWrite (r : Nat)
deriving DecidableEq

def State.next (s : State) : Event → Option State
  | .readLine line =>
    if s.client.stage = .reading then some { s with client := s.client.readLine line } else none
  | .clientWrite r =>
    match s.client.stage with
    | .sending left =>
      if 0 < r ∧ r ≤ left.length then
        some { s with up := s.up ++ left.take r, client := s.client.wrote (left.drop r) }
      else none
    | _ => none
  | .clientRead r =>
    match s.client.stage with
    | .receiving got =>
      if 0 < r ∧ r ≤ s.down.length ∧ got.length + r ≤ s.client.n ∨
          r = 0 ∧ s.down = [] ∧ s.server.stage = .done then
        some { s with down := s.down.drop r, client := s.client.read (got ++ s.down.take r) }
      else none
    | _ => none
  | .recv r =>
    if s.server.stage = .receiving ∧
        (0 < r ∧ r ≤ s.up.length ∧ r ≤ bufferSize ∨
          r = 0 ∧ s.up = [] ∧ s.client.stage = .done) then
      some { s with up := s.up.drop r, server := s.server.recv (s.up.take r) }
    else none
  | .serverWrite r =>
    match s.server.stage with
    | .sending left =>
      if 0 < r ∧ r ≤ left.length then
        some { s with down := s.down ++ left.take r, server := s.server.wrote (left.drop r) }
      else none
    | _ => none

def Step (s : State) (e : Event) (s' : State) : Prop := s.next e = some s'

/-- Before the first line, with whatever the arrays hold then. -/
def start (message message' : Buffer bufferSize) : State :=
  ⟨⟨.reading, message, 0⟩, ⟨.receiving, message'⟩, [], []⟩

/-- The line that the client reads. -/
def typedBy (x : State × Event) : Option Bytes :=
  match x.2 with
  | .readLine line => some line.text
  | _ => none

def typed (steps : List (State × Event)) : List Bytes := steps.filterMap typedBy

/-- What `recv_msg` has got when it returns, and the client prints. -/
def echoedBy (x : State × Event) : Option Bytes :=
  match x.2 with
  | .clientRead r =>
    match x.1.client.stage with
    | .receiving got =>
      if got.length + r = x.1.client.n then some (got ++ x.1.down.take r) else none
    | _ => none
  | _ => none

def echoed (steps : List (State × Event)) : List Bytes := steps.filterMap echoedBy

/-! ## One step -/

/-- The outcomes of a step. -/
inductive Moved (s : State) : Event → State → Prop
  | typed (line : Line) (hc : s.client.stage = .reading) :
    Moved s (.readLine line) { s with client := s.client.readLine line }
  | sent {r : Nat} {left : Bytes} (hc : s.client.stage = .sending left) (hr : 0 < r)
      (hle : r ≤ left.length) :
    Moved s (.clientWrite r)
      { s with up := s.up ++ left.take r, client := s.client.wrote (left.drop r) }
  | got {r : Nat} {got : Bytes} (hc : s.client.stage = .receiving got)
      (hr : 0 < r ∧ r ≤ s.down.length ∧ got.length + r ≤ s.client.n ∨
        r = 0 ∧ s.down = [] ∧ s.server.stage = .done) :
    Moved s (.clientRead r)
      { s with down := s.down.drop r, client := s.client.read (got ++ s.down.take r) }
  | arrived {r : Nat} (hv : s.server.stage = .receiving)
      (hr : 0 < r ∧ r ≤ s.up.length ∧ r ≤ bufferSize ∨
        r = 0 ∧ s.up = [] ∧ s.client.stage = .done) :
    Moved s (.recv r) { s with up := s.up.drop r, server := s.server.recv (s.up.take r) }
  | answered {r : Nat} {left : Bytes} (hv : s.server.stage = .sending left) (hr : 0 < r)
      (hle : r ≤ left.length) :
    Moved s (.serverWrite r)
      { s with down := s.down ++ left.take r, server := s.server.wrote (left.drop r) }

theorem Step.moved {s s' : State} {e : Event} (h : Step s e s') : Moved s e s' := by
  unfold Step State.next at h
  cases e with
  | readLine line =>
    dsimp only at h
    split at h
    · exact Option.some.inj h ▸ .typed line ‹_›
    · cases h
  | clientWrite r =>
    dsimp only at h
    split at h
    · rename_i left hc
      split at h
      · rename_i hr
        exact Option.some.inj h ▸ .sent hc hr.1 hr.2
      · cases h
    · cases h
  | clientRead r =>
    dsimp only at h
    split at h
    · rename_i got hc
      split at h
      · exact Option.some.inj h ▸ .got hc ‹_›
      · cases h
    · cases h
  | recv r =>
    dsimp only at h
    split at h
    · rename_i hr
      exact Option.some.inj h ▸ .arrived hr.1 hr.2
    · cases h
  | serverWrite r =>
    dsimp only at h
    split at h
    · rename_i left hv
      split at h
      · rename_i hr
        exact Option.some.inj h ▸ .answered hv hr.1 hr.2
      · cases h
    · cases h

end DistributedSystems.Exercise2
