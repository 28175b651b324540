import DistributedSystems.Exercise1.ReceiveLoop
import DistributedSystems.Exercise1.VectorMap
import DistributedSystems.Support.MessageQueues

/-!
# The client library (`Exercise1/array.c`)

Every call of the library is one exchange with the server over a queue that is named after the
process. The queue is opened or created, and closed and unlinked after the response; a call that
fails in between returns at once and leaves all as it is.

`State` are any number of processes, each with what is left of its current call, and the server with
its queue and its threads of `process_request`. Requests and responses carry the call that they
belong to, which the code does not see. What `function_selector` responds is left open.
-/

namespace DistributedSystems.Exercise1.Client

open Support

/-! ## The calls of a client -/

/-- `sprintf(req.q_name,"/%d",getpid())`. -/
def qName (pid : Nat) : Bytes := 47 :: (Nat.toDigits 10 pid).map fun c => UInt8.ofNat c.toNat

/-- The process that a queue is named after. -/
def pidOf (name : Bytes) : Nat := name.tail.foldl (fun n ch => 10 * n + (ch.toNat - 48)) 0

theorem foldl_digits {digits : List Char} (h : ∀ c ∈ digits, c.isDigit) (n : Nat) :
    (digits.map fun c => UInt8.ofNat c.toNat).foldl (fun n ch => 10 * n + (ch.toNat - 48)) n =
      Nat.ofDigitChars 10 digits n := by
  induction digits generalizing n with
  | nil => rfl
  | cons c digits ih =>
    have hc : c.isDigit := h c List.mem_cons_self
    have hbyte : (UInt8.ofNat c.toNat).toNat = c.toNat := by
      simp only [Char.isDigit, ge_iff_le, Bool.and_eq_true, decide_eq_true_eq] at hc
      have hle : c.toNat ≤ 57 := hc.2
      rw [UInt8.toNat_ofNat']
      omega
    rw [List.map_cons, List.foldl_cons, hbyte, Nat.ofDigitChars_cons]
    exact ih (fun c hc => h c (List.mem_cons_of_mem _ hc)) _

theorem pidOf_qName (pid : Nat) : pidOf (qName pid) = pid := by
  rw [pidOf, qName, List.tail_cons, foldl_digits, Nat.ofDigitChars_ten_toDigits]
  exact fun c hc => Nat.isDigit_of_mem_toDigits (by decide) (by decide) hc

/-- Processes have queues of their own. -/
theorem qName_ne {pid pid' : Nat} (h : pid ≠ pid') : qName pid ≠ qName pid' :=
  fun heq => h (Function.LeftInverse.injective pidOf_qName heq)

/-- What a call of the library returns, and what it stores to `*value`. -/
structure Returned where
  output : Int
  value : Option Int
deriving DecidableEq, Repr

inductive QueueCall
  /-- `mq_open` of the client's queue, with `O_CREAT`. -/
  | openClient (qName : Bytes)
  | openServer
  | send (req : Message)
  | receive (qClient : Nat)
  | closeServer
  | closeClient (qClient : Nat)
  | unlink (qName : Bytes)
deriving DecidableEq

/-- `none` and `false` are the -1 of a failed call. The result of `mq_close` is not looked at. -/
abbrev QueueCall.Answer : QueueCall → Type
  | .openClient _ => Option Nat
  | .openServer => Bool
  | .send _ => Bool
  | .receive _ => Option Response
  | .closeServer => Unit
  | .closeClient _ => Unit
  | .unlink _ => Bool

abbrev Call := Program QueueCall.Answer Returned

def failed : Call := .done ⟨-1, none⟩

section Exchange

variable (req : Message) (qClient : Nat) (finish : Response → Returned)

def unlinked (response : Response) : Bool → Call
  | false => failed
  | true => .done (finish response)

def closing (response : Response) : Call :=
  .call (.closeClient qClient) fun _ => .call (.unlink req.qName) (unlinked finish response)

def received : Option Response → Call
  | none => failed
  | some response => .call .closeServer fun _ => closing req qClient finish response

def sent : Bool → Call
  | false => failed
  | true => .call (.receive qClient) (received req qClient finish)

def connected : Bool → Call
  | false => failed
  | true => .call (.send req) (sent req qClient finish)

def opened : Option Nat → Call
  | none => failed
  | some qClient => .call .openServer (connected req qClient finish)

/-- The part that the four calls share. -/
def exchange : Call := .call (.openClient req.qName) (opened req finish)

end Exchange

/-- What a service makes of the response. `get` stores to `*value` unless the output is -1. -/
def finish : Service → Response → Returned
  | .get _ _, response =>
    ⟨response.output, if response.output ≠ -1 then response.data else none⟩
  | _, response => ⟨response.output, none⟩

/-- A call of a service, which fails at once if the arguments are refused. -/
def call (pid : Nat) (req : Request) (service : Service) : Call :=
  match service.request req with
  | none => failed
  | some request => exchange ⟨request, qName pid⟩ (finish service)

/-! ## Processes and server -/

/-- A call of the library: the `number`-th of its process. -/
structure CallId where
  pid : Nat
  number : Nat
deriving DecidableEq, Repr

/-- A client process, between two calls or in its last one. -/
structure Process where
  calls : Nat
  rest : Call

/-- A thread of `process_request`: the call that it answers, its request, and the client's queue
once it has opened it. -/
structure Worker where
  id : CallId
  req : Message
  qClient : Option Nat

structure State where
  queues : Queues Bytes (CallId × Response)
  /-- The server's queue. -/
  server : List (CallId × Message)
  workers : List Worker
  process : Nat → Process

def start : State where
  queues := .empty
  server := []
  workers := []
  process _ := ⟨0, .done ⟨0, none⟩⟩

/-- `maxmsg` of the server's queue and of the clients' queues. -/
def serverMaxmsg : Nat := 10

def clientMaxmsg : Nat := 1

def State.withQueues (s : State) (queues : Queues Bytes (CallId × Response)) : State :=
  { s with queues := queues }

@[simp] theorem State.queues_withQueues (s : State) (queues : Queues Bytes (CallId × Response)) :
    (s.withQueues queues).queues = queues := rfl

/-- A request at the end of the server's queue. -/
def State.enqueue (s : State) (id : CallId) (req : Message) : State :=
  { s with server := s.server ++ [(id, req)] }

/-- A call of the process that its `id` says. It fails if `ok` says so. `none` while it blocks. -/
def perform (id : CallId) (ok : Bool) (s : State) : (a : QueueCall) → Option (a.Answer × State)
  | .openClient qName =>
    if ok then
      some (some (s.queues.openCreate qName).1, s.withQueues (s.queues.openCreate qName).2)
    else some (none, s)
  | .openServer => some (ok, s)
  | .send req =>
    if ok then
      if s.server.length < serverMaxmsg then some (true, s.enqueue id req) else none
    else some (false, s)
  | .receive qClient =>
    if ok then
      (s.queues.receive qClient).map fun r => (some r.1.2, s.withQueues r.2)
    else some (none, s)
  | .closeServer => some ((), s)
  | .closeClient _ => some ((), s)
  | .unlink qName =>
    match s.queues.unlink qName with
    | none => some (false, s)
    | some queues => if ok then some (true, s.withQueues queues) else some (false, s)

inductive Event
  /-- A process between two calls begins one. -/
  | begin (pid : Nat) (req : Request) (service : Service)
  /-- A process makes the next call of its exchange. -/
  | run (pid : Nat) (ok : Bool)
  /-- `main` of the server receives a request and creates a thread for it. -/
  | take
  /-- A thread opens the queue that its request names. -/
  | openQueue (i : Nat) (ok : Bool)
  /-- A thread sends the response, unless its `mq_send` fails. -/
  | answer (i : Nat) (response : Option Response)
deriving DecidableEq

def State.setProcess (s : State) (pid : Nat) (p : Process) : State :=
  { s with process := Function.update s.process pid p }

@[simp] theorem State.process_setProcess_self (s : State) (pid : Nat) (p : Process) :
    (s.setProcess pid p).process pid = p := by
  simp [setProcess]

theorem State.process_setProcess_of_ne (s : State) {pid pid' : Nat} (h : pid' ≠ pid) (p : Process) :
    (s.setProcess pid p).process pid' = s.process pid' := by
  simp [setProcess, h]

def next (s : State) : Event → Option State
  | .begin pid req service =>
    match (s.process pid).rest with
    | .done _ => some (s.setProcess pid ⟨(s.process pid).calls + 1, call pid req service⟩)
    | .call _ _ => none
  | .run pid ok =>
    match (s.process pid).rest with
    | .done _ => none
    | .call a rest =>
      (perform ⟨pid, (s.process pid).calls⟩ ok s a).map fun r =>
        r.2.setProcess pid ⟨(s.process pid).calls, rest r.1⟩
  | .take =>
    match s.server with
    | [] => none
    | (id, req) :: server =>
      some { s with server := server, workers := s.workers ++ [⟨id, req, none⟩] }
  | .openQueue i ok =>
    match s.workers[i]? with
    | some ⟨id, req, none⟩ =>
      match s.queues.openExisting req.qName with
      | some qClient =>
        if ok then some { s with workers := s.workers.set i ⟨id, req, some qClient⟩ }
        else some { s with workers := s.workers.eraseIdx i }
      | none => some { s with workers := s.workers.eraseIdx i }
    | _ => none
  | .answer i response =>
    match s.workers[i]? with
    | some ⟨id, _, some qClient⟩ =>
      match response with
      | some response =>
        (s.queues.send clientMaxmsg qClient (id, response)).map fun queues =>
          { s with queues := queues, workers := s.workers.eraseIdx i }
      | none => some { s with workers := s.workers.eraseIdx i }
    | _ => none

def Step (s : State) (e : Event) (s' : State) : Prop := next s e = some s'

/-- The call that receives a response in a step, with the call whose request is answered. -/
def receives (s : State) : Event → Option (CallId × CallId)
  | .run pid true =>
    match (s.process pid).rest with
    | .call (.receive qClient) _ =>
      (s.queues.contents qClient).head?.map fun m => (⟨pid, (s.process pid).calls⟩, m.1)
    | _ => none
  | _ => none

/-- Every response that a call has received answers the request of that call. -/
def OwnAnswers (steps : List (State × Event)) : Prop :=
  ∀ x ∈ steps, ∀ r ∈ receives x.1 x.2, r.1 = r.2

instance (steps : List (State × Event)) : Decidable (OwnAnswers steps) :=
  inferInstanceAs (Decidable (∀ x ∈ steps, ∀ r ∈ receives x.1 x.2, r.1 = r.2))

end DistributedSystems.Exercise1.Client
