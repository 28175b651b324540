import DistributedSystems.Lab.ClientJava.CommandLine
import DistributedSystems.Lab.ClientJava.GetFile
import DistributedSystems.Lab.ClientJava.ListUsers
import DistributedSystems.Lab.ClientJava.Session

/-!
# Methods of the client (`clientjava/client.java`, `clientjava/ServerThread.java`)

The methods that the commands call, on the static fields of the client and the threads that it has
started, against a network that may answer anything or nothing. What a method prints is left out.
A method ends normally or with an exception that none of its `catch` clauses names. Against the
server of this development they do to the connection what `Session` says (`connect_session`,
`disconnect_session`).
-/

namespace DistributedSystems.Lab

open Fs Support CommandLine

/-! ## Network -/

/-- What comes back on a connection, and whether the connection then breaks. Otherwise the stream
ends. -/
structure Reply where
  bytes : Bytes
  reset : Bool

/-- What a method meets. -/
structure Network where
  /-- The server, if a connection to it can be opened. -/
  server : Option (Bytes → Reply)
  /-- The port of a new `ServerSocket`, if there is one. -/
  localPort : Option Nat
  /-- The web service. -/
  toUppercase : JString → JString
  peer : UsersData → Option (Bytes → Bytes)
  writable : Bool

/-! ## Server threads -/

/-- `running` lets the loop of the thread go on. -/
structure ServerThread where
  userName : Bytes
  socketClosed : Bool
  running : Bool
deriving DecidableEq

/-- The socket can always be closed, which ends the `accept` that the loop waits in. -/
def ServerThread.closeConnection (t : ServerThread) : ServerThread :=
  { t with socketClosed := true, running := false }

def ServerThread.quitRequest (t : ServerThread) : Bytes :=
  getBytes (jstring "DISCONNECT" ++ [0]) ++ t.userName

/-- The socket is closed only when the server has answered. -/
def ServerThread.closeConnectionQuit (network : Network) (t : ServerThread) : ServerThread :=
  match network.server with
  | none => t
  | some answer =>
    match readInt (answer t.quitRequest).bytes with
    | none => t
    | some _ => t.closeConnection

/-! ## Requests -/

/-- `parse_string`, with the exceptions of a null reference and of the store in the array. -/
def parsed : Option JString → Except Uncaught Bytes
  | none => .error .nullPointer
  | some userString =>
    if userString.length > messageSize - 1 then
      let byteArray := getBytes (userString.take messageSize)
      if messageSize - 1 < byteArray.length then .ok (byteArray.set (messageSize - 1) nul)
      else .error .arrayIndexOutOfBounds
    else .ok (getBytes (userString ++ [0]))

/-- The array is long enough. -/
theorem parsed_some (userString : JString) : parsed (some userString) =
    .ok (parseString userString) := by
  unfold parsed parseString
  dsimp only
  split
  · rename_i h
    have htake : (userString.take messageSize).length = messageSize := by
      rw [List.length_take]
      omega
    have hlen : messageSize ≤ (getBytes (userString.take messageSize)).length :=
      calc messageSize = (userString.take messageSize).length := htake.symm
        _ ≤ (Utf16.encode (Utf16.decode (userString.take messageSize))).length :=
          Utf16.length_le_encode_decode _
        _ ≤ (getBytes (userString.take messageSize)).length := Utf16.length_encode_le _
    have hpos : 0 < messageSize := by decide
    exact if_pos (by omega)
  · rfl

/-- The bytes of a request. -/
def request (type : Commands) (arguments : List (Option JString)) : Except Uncaught Bytes := do
  let fields ← arguments.mapM parsed
  return parseCommand type ++ fields.flatten

theorem request_some (type : Commands) (arguments : List JString) :
    request type (arguments.map some) =
      .ok (parseCommand type ++ arguments.flatMap parseString) := by
  have hfields : (arguments.map some).mapM parsed = .ok (arguments.map parseString) := by
    induction arguments with
    | nil => rfl
    | cons argument arguments ih =>
      rw [List.map_cons, List.mapM_cons, ih, parsed_some]
      rfl
  unfold request
  rw [hfields]
  exact congrArg (fun fields => Except.ok (parseCommand type ++ fields))
    (List.flatMap_def.symm)

/-! ## Ports -/

/-- The zeros of the decimal digits that `Character.digit` knows among the 16-bit characters. -/
def digitZeros : List Nat :=
  [0x0030, 0x0660, 0x06F0, 0x07C0, 0x0966, 0x09E6, 0x0A66, 0x0AE6, 0x0B66, 0x0BE6, 0x0C66, 0x0CE6,
    0x0D66, 0x0DE6, 0x0E50, 0x0ED0, 0x0F20, 0x1040, 0x1090, 0x17E0, 0x1810, 0x1946, 0x19D0, 0x1A80,
    0x1A90, 0x1B50, 0x1BB0, 0x1C40, 0x1C50, 0xA620, 0xA8D0, 0xA900, 0xA9D0, 0xA9F0, 0xAA50, 0xABF0,
    0xFF10]

/-- `Character.digit(c, 10)`. -/
def digit (c : Char) : Option Nat :=
  digitZeros.findSome? fun z =>
    if z ≤ c.toNat ∧ c.toNat < z + 10 then some (c.toNat - z) else none

/-- The digits after the sign, if there is one, and whether that is a minus. -/
def signed : List Char → Bool × List Char
  | '-' :: digits => (true, digits)
  | '+' :: digits => (false, digits)
  | digits => (false, digits)

/-- `Integer.parseInt`. -/
def parseInt (s : List Char) : Option Int :=
  let (negative, digits) := signed s
  if digits = [] then none
  else do
    let values ← digits.mapM digit
    let n : Nat := values.foldl (fun n value => n * 10 + value) 0
    let result : Int := if negative then -(n : Int) else n
    if -2 ^ 31 ≤ result ∧ result < 2 ^ 31 then some result else none

/-- What `new Socket` takes for a port. -/
def portOf (remoteData : UsersData) : Except Uncaught Nat :=
  match parseInt remoteData.port with
  | none => .error .numberFormat
  | some port => if 0 ≤ port ∧ port ≤ 0xFFFF then .ok port.toNat else .error .illegalArgument

/-! ## Received users -/

/-- What ends the loop over the received users early. -/
inductive Interruption
  | nullPointer
  | ioException
deriving DecidableEq, Repr

/-- `readLine().trim()`. A broken connection gives no line that is not complete. -/
def receiveField (reset : Bool) (text : List Char) : Except Interruption (List Char × List Char) :=
  if reset && !text.any (TextLines.IsBreak ·) then .error .ioException
  else
    match Client.readField text with
    | none => .error .nullPointer
    | some r => .ok r

def receiveUser (reset : Bool) (text : List Char) :
    Except Interruption (ListedUser × List Char) := do
  let (name, text) ← receiveField reset text
  let (ip, text) ← receiveField reset text
  let (port, text) ← receiveField reset text
  return (⟨name, ip, port⟩, text)

/-- The users that are put in the table, and what ends the loop before all are. -/
def receiveUsers (reset : Bool) : Nat → List Char → Option Interruption × List ListedUser
  | 0, _ => (none, [])
  | n + 1, text =>
    match receiveUser reset text with
    | .error interruption => (some interruption, [])
    | .ok (user, text) => ((receiveUsers reset n text).1, user :: (receiveUsers reset n text).2)

/-! ## The client -/

/-- The static fields. `threads` are the server threads that have been started, and `serverThread`
is the one of them that `server_Thread` refers to. -/
structure ClientFields where
  connected : Bool
  connectedUserName : Option JString
  serverThread : Option Nat
  threads : List ServerThread
  usersData : JString → Option UsersData

/-- How a method ends: the exception, if there is one, and the fields. -/
abbrev Ended := Option Uncaught × ClientFields

namespace ClientFields

/-- A client that has been started. -/
def init : ClientFields := ⟨false, none, none, [], fun _ => none⟩

variable (network : Network) (c : ClientFields)

/-- The arguments are parsed before the connection is opened; what comes back on the connection, if
there is one, is what the method goes on with. -/
def exchange (request : Except Uncaught Bytes) (received : Option Reply → Ended) : Ended :=
  match request with
  | .error e => (some e, c)
  | .ok bytes => received (network.server.map (· bytes))

/-- Something is printed for what has been received, or for the exception. -/
def printed : Option Reply → Ended := fun _ => (none, c)

def register (user : JString) : Ended :=
  c.exchange network (request .register [some user]) c.printed

def unregister (user : JString) : Ended :=
  c.exchange network (request .unregister [some user]) c.printed

/-- `server_Thread.closeConnection()`, `join()` and `server_Thread = null`. -/
def closeThread : ClientFields :=
  match c.serverThread with
  | none => c
  | some i =>
    { c with serverThread := none, threads := c.threads.modify i ServerThread.closeConnection }

/-- The thread of `connect` has been started. -/
def startThread (userName : Bytes) : ClientFields :=
  { c with
    serverThread := some c.threads.length
    threads := c.threads ++ [⟨userName, false, true⟩] }

/-- The `switch` of `connect`. -/
def connectReceived (user : JString) (receiveOutput : Int) : ClientFields :=
  if receiveOutput = 1 ∨ receiveOutput = 2 ∨ receiveOutput = 3 then c.closeThread
  else { c with connected := true, connectedUserName := some user }

/-- The `finally` of `connect`. -/
def connectFinally (receiveOutput : Int) : ClientFields :=
  if receiveOutput ≠ 0 then c.closeThread else c

/-- What `connect` makes of the number that it has received, or of an exception. -/
def connectAnswered (user : JString) : Option (Int × Bytes) → ClientFields
  | none => c.connectFinally 3
  | some (receiveOutput, _) => (c.connectReceived user receiveOutput).connectFinally receiveOutput

def connect (user : JString) : Ended :=
  if c.connected then (none, c)
  else
    match parsed (some user) with
    | .error e => (some e, c)
    | .ok userName =>
      match network.server, network.localPort with
      | some answer, some serverPort =>
        let port := cstring (toString serverPort) ++ [nul]
        let reply := answer (parseCommand .connect ++ userName ++ port)
        (none, (c.startThread userName).connectAnswered user (readInt reply.bytes))
      | _, _ => (none, c.connectFinally 3)

/-- The `finally` of `disconnect`. -/
def disconnectFinally : Ended :=
  match c.serverThread with
  | none => (some .nullPointer, c)
  | some _ => (none, { c.closeThread with connected := false, connectedUserName := none })

def disconnect (user : JString) : Ended :=
  if c.connected = false then (none, c)
  else if c.connectedUserName ≠ some user then (none, c)
  else c.exchange network (request .disconnect [some user]) fun _ => c.disconnectFinally

def publish (user fileName description : JString) : Ended :=
  c.exchange network
    (request .publish [some user, some fileName, some (network.toUppercase description)]) c.printed

def delete (fileName : JString) : Ended :=
  if c.connected = false then (none, c)
  else c.exchange network (request .delete [c.connectedUserName, some fileName]) c.printed

/-- `users_data.put`. -/
def put (user : ListedUser) : ClientFields :=
  { c with
    usersData := Function.update c.usersData (Utf16.encode user.name) (some ⟨user.ip, user.port⟩) }

/-- The loop over the received users. -/
def listed (reset : Bool) (numberUsers : Int) (text : List Char) : Ended :=
  let r := receiveUsers reset numberUsers.toNat text
  (if r.1 = some .nullPointer then some .nullPointer else none, r.2.foldl put c)

def listUsersReceived : Option Reply → Ended
  | none => (none, c)
  | some reply =>
    match readInt reply.bytes with
    | none => (none, c)
    | some (receiveOutput, rest) =>
      if receiveOutput = 0 then
        match readInt rest with
        | none => (none, c)
        | some (numberUsers, rest) => c.listed reply.reset numberUsers (Utf8.decode rest)
      else (none, c)

def listUsers : Ended :=
  if c.connected = false then (none, c)
  else c.exchange network (request .listUsers [c.connectedUserName]) c.listUsersReceived

def listContent (userName : JString) : Ended :=
  if c.connected = false then (none, c)
  else
    c.exchange network (request .listContent [c.connectedUserName, some userName]) c.printed

/-- The transfer of `get_file`, once the port has been understood. -/
def transfer (userName remoteFileName localFileName : JString) : Except Uncaught GetFile :=
  match c.usersData userName with
  | none => .ok .fail
  | some remoteData => do
    let _ ← portOf remoteData
    return Lab.getFile .utf8 (fun _ => some remoteData) network.peer network.writable
      (Utf16.decode userName) (Utf16.decode remoteFileName) (Utf16.decode localFileName)

def getFile (userName remoteFileName localFileName : JString) : Ended :=
  match c.transfer network userName remoteFileName localFileName with
  | .error e => (some e, c)
  | .ok _ => (none, c)

/-- The method that the shell calls. -/
def perform : Command → Ended
  | .register user => c.register network user
  | .unregister user => c.unregister network user
  | .connect user => c.connect network user
  | .disconnect user => c.disconnect network user
  | .publish user fileName description => c.publish network user fileName description
  | .delete fileName => c.delete network fileName
  | .listUsers => c.listUsers network
  | .listContent userName => c.listContent network userName
  | .getFile userName remoteFileName localFileName =>
    c.getFile network userName remoteFileName localFileName
  | .quit | .syntaxError | .notValid _ | .nothing => (none, c)

/-- What `main` does after the shell. -/
def quit : Ended :=
  if c.connected then
    match c.serverThread with
    | none => (some .nullPointer, c)
    | some i => (none, { c with threads := c.threads.modify i (.closeConnectionQuit network) })
  else (none, c)

/-! ## Methods that only print -/

variable {network c}

theorem exchange_some (type : Commands) (arguments : List JString)
    (received : Option Reply → Ended) :
    c.exchange network (request type (arguments.map some)) received =
      received (network.server.map (· (parseCommand type ++ arguments.flatMap parseString))) := by
  unfold exchange
  rw [request_some]

@[simp] theorem register_eq (user : JString) : c.register network user = (none, c) :=
  exchange_some .register [user] c.printed

@[simp] theorem unregister_eq (user : JString) : c.unregister network user = (none, c) :=
  exchange_some .unregister [user] c.printed

@[simp] theorem publish_eq (user fileName description : JString) :
    c.publish network user fileName description = (none, c) :=
  exchange_some .publish [user, fileName, network.toUppercase description] c.printed

theorem exchange_named {user : JString} (h : c.connectedUserName = some user) (type : Commands)
    (arguments : List JString) (received : Option Reply → Ended) :
    c.exchange network (request type (c.connectedUserName :: arguments.map some)) received =
      received (network.server.map
        (· (parseCommand type ++ (user :: arguments).flatMap parseString))) := by
  rw [h]
  exact exchange_some type (user :: arguments) received

theorem disconnect_eq {user : JString} (hconnected : c.connected = true)
    (huser : c.connectedUserName = some user) :
    c.disconnect network user = c.disconnectFinally := by
  unfold disconnect
  rw [if_neg (by simp [hconnected]), if_neg (by simp [huser])]
  exact exchange_some .disconnect [user] fun _ => c.disconnectFinally

/-! ## The connection -/

/-- The part of the fields that the connection is kept in. -/
def state (c : ClientFields) : ClientState :=
  ⟨c.connected, c.connectedUserName, c.serverThread.isSome⟩

theorem serverThread_closeThread (c : ClientFields) : c.closeThread.serverThread = none := by
  unfold closeThread
  cases h : c.serverThread with
  | none => exact h
  | some i => rfl

theorem state_closeThread (c : ClientFields) :
    c.closeThread.state = { c.state with serverThread := false } := by
  unfold state
  rw [serverThread_closeThread]
  unfold closeThread
  cases c.serverThread <;> rfl

/-- The bytes of a CONNECT. -/
def connectRequest (user : JString) (serverPort : Nat) : Bytes :=
  parseCommand .connect ++ parseString user ++ (cstring (toString serverPort) ++ [nul])

/-- A CONNECT of a client that is not connected, by what it receives. -/
theorem connect_eq (hconnected : c.connected = false) {answer : Bytes → Reply} {serverPort : Nat}
    (hserver : network.server = some answer) (hport : network.localPort = some serverPort)
    (user : JString) :
    c.connect network user = (none, (c.startThread (parseString user)).connectAnswered user
      (readInt (answer (connectRequest user serverPort)).bytes)) := by
  unfold connect
  rw [if_neg (by simp [hconnected]), parsed_some, hserver, hport]
  rfl

/-- There is no thread without a connection and a socket. -/
theorem connect_refused (hconnected : c.connected = false)
    (h : network.server = none ∨ network.localPort = none) (user : JString) :
    c.connect network user = (none, c.closeThread) := by
  unfold connect
  rw [if_neg (by simp [hconnected]), parsed_some]
  dsimp only
  split
  · rename_i answer serverPort hserver hport
    rcases h with h | h
    · rw [hserver] at h
      cases h
    · rw [hport] at h
      cases h
  · rfl

end ClientFields

/-! ## Sessions -/

/-- The answers of the server. -/
def Conditions.answers (x : Conditions) (s : Store) (request : Bytes) : Reply :=
  ⟨(processRequest x.calls x.allocated x.locals ⟨received request, x.address⟩ s).1, false⟩

namespace ClientFields

variable {network : Network} {server : Option Conditions} {store : Store}

theorem state_connectAnswered {c : ClientFields} (h : c.serverThread.isSome = true)
    (user : JString) (received : Option (Int × Bytes)) :
    (c.connectAnswered user received).state =
      Session.connectAnswered user c.state (received.map Prod.fst) := by
  cases received with
  | none => exact state_closeThread c
  | some r =>
    obtain ⟨receiveOutput, rest⟩ := r
    unfold connectAnswered connectReceived connectFinally Session.connectAnswered
    dsimp only [Option.map_some]
    by_cases hrefused : receiveOutput = 1 ∨ receiveOutput = 2 ∨ receiveOutput = 3
    · rw [if_pos hrefused, if_pos (by omega), if_pos hrefused, state_closeThread, state_closeThread]
    · rw [if_neg hrefused, if_neg hrefused]
      by_cases hzero : receiveOutput = 0
      · rw [if_neg (not_not.2 hzero)]
        simp [state, h, hzero]
      · rw [if_pos hzero, state_closeThread]
        simp [state, hzero]

/-- CONNECT does to the connection what it does in a session. -/
theorem connect_session (c : ClientFields) {serverPort : Nat}
    (hserver : network.server = server.map (·.answers store))
    (hport : network.localPort = some serverPort) (user : JString) :
    (c.connect network user).2.state =
      (Session.connect user server ⟨c.state, store⟩ serverPort).client := by
  unfold Session.connect
  cases hconnected : c.connected with
  | true =>
    unfold connect
    rw [if_pos hconnected, if_pos (show c.state.connected = true from hconnected)]
  | false =>
    rw [if_neg (show ¬ c.state.connected = true by simp [state, hconnected])]
    cases server with
    | none =>
      rw [connect_refused hconnected (Or.inl hserver), state_closeThread]
      rfl
    | some x =>
      rw [connect_eq hconnected hserver hport, state_connectAnswered rfl]
      -- the thread that has been started is closed again, or the session is connected
      unfold Session.connectAnswered send Conditions.exchange Conditions.answers connectRequest
      dsimp only
      split <;> rfl

/-- DISCONNECT does to the connection what it does in a session. -/
theorem disconnect_session (c : ClientFields) (user : JString) :
    (c.disconnect network user).2.state =
      (Session.disconnect user server ⟨c.state, store⟩).client := by
  unfold Session.disconnect
  by_cases hconnected : c.connected = false
  · unfold disconnect
    rw [if_pos hconnected, if_pos (show c.state.connected = false from hconnected)]
  · rw [if_neg (show ¬ c.state.connected = false from hconnected)]
    by_cases huser : c.connectedUserName = some user
    · rw [if_neg (show ¬ c.state.connectedUserName ≠ some user from not_not.2 huser),
        disconnect_eq (by simpa using hconnected) huser]
      unfold disconnectFinally
      cases hthread : c.serverThread with
      | none => simp [state, hthread]
      | some i =>
        have hnone := serverThread_closeThread c
        simp [state, hthread, hnone]
    · unfold disconnect
      rw [if_neg hconnected, if_pos huser,
        if_pos (show c.state.connectedUserName ≠ some user from huser)]

end ClientFields

end DistributedSystems.Lab
