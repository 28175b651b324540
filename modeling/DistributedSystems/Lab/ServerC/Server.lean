import DistributedSystems.Lab.ServerC.Effects
import DistributedSystems.Support.Runs

/-!
# The request loop (`serverc/server.c`)

One connection is one request: `processRequest` reads the name of the command, `commandSelector`
runs the handler, and the status goes back unless the handler has replied by itself. The server that
handles one request at a time is the relation `ServerStep`, from a store that `initP2pService` made.
-/

namespace DistributedSystems.Lab

open Fs Support

/-! ## Commands -/

namespace Command

def register : Bytes := cstring "REGISTER"
def unregister : Bytes := cstring "UNREGISTER"
def connect : Bytes := cstring "CONNECT"
def disconnect : Bytes := cstring "DISCONNECT"
def publish : Bytes := cstring "PUBLISH"
def delete : Bytes := cstring "DELETE"
def listUsersList : Bytes := cstring "LIST_USERS"
def listContentList : Bytes := cstring "LIST_CONTENT"

end Command

def selfReply : Int := 10

/-- How the call of a handler ends: with a status, or with the end of the thread after the bytes
that the handler has sent itself. -/
inductive Handled
  | returns (output : Int)
  | exits (sent : Bytes)
deriving DecidableEq, Repr

/-- What goes back to the client: the status, unless the handler has replied itself. -/
def Handled.reply : Handled → Bytes
  | .returns output => if output ≠ selfReply then htonl output else []
  | .exits sent => sent

def commandSelector (c : SysCalls) (allocated : Bool) (locals : Locals) (socket : Socket)
    (buffer : Bytes) (s : Store) : Handled × Store :=
  let answer (r : Int × Store) : Handled × Store := (.returns r.1, r.2)
  if buffer = Command.register then answer (registerUser c locals socket s)
  else if buffer = Command.unregister then answer (unregisterUser c locals socket s)
  else if buffer = Command.connect then answer (connectUser c locals socket s)
  else if buffer = Command.disconnect then answer (disconnectUser c locals socket s)
  else if buffer = Command.publish then answer (publishFile c locals socket s)
  else if buffer = Command.delete then answer (deleteFile c locals socket s)
  else if buffer = Command.listUsersList then (.exits (listUsers allocated locals socket s), s)
  else if buffer = Command.listContentList then (.exits (listContent c locals socket s), s)
  -- no branch has stored to `output`
  else (.returns locals.output, s)

/-- The bytes sent on the connection and the store afterwards. -/
def processRequest (c : SysCalls) (allocated : Bool) (locals : Locals) (socket : Socket)
    (s : Store) : Bytes × Store :=
  match receive locals.message socket.input with
  | none => ([], s)
  | some (message, rest) =>
    let r := commandSelector c allocated locals { socket with input := rest } message.text s
    (r.1.reply, r.2)

/-! ## What a connection asks for -/

/-- An operation whose fields have been read. -/
inductive Operation
  | change (request : Request)
  | listUsers (userName : Line)
  | listContent (useropName userName : Line)
deriving DecidableEq, Repr

/-- The reply to an operation and the store afterwards. -/
def Operation.run (c : SysCalls) (allocated : Bool) (address : Option Bytes) (s : Store) :
    Operation → Bytes × Store
  | .change request => (htonl (serve c address request s).1, (serve c address request s).2)
  | .listUsers _ => (listUsers.act allocated s, s)
  | .listContent _ userName => (listContent.act c userName.text s, s)

/-- The operation that a server reads from the bytes of a connection, if they name one. -/
def operationOf (locals : Locals) (a : Arrived) : Option Operation :=
  let command := (a.next locals.message).text
  let a₁ := a.rest
  let a₂ := a₁.rest
  let a₃ := a₂.rest
  if command = Command.register then some (.change (.register (a₁.next locals.userName)))
  else if command = Command.unregister then some (.change (.unregister (a₁.next locals.userName)))
  else if command = Command.connect then
    some (.change (.connect (a₁.next locals.userName) (a₂.next locals.userPort)))
  else if command = Command.disconnect then some (.change (.disconnect (a₁.next locals.userName)))
  else if command = Command.publish then
    some (.change (.publish (a₁.next locals.userName) (a₂.next locals.fileName)
      (a₃.next locals.fileDescription)))
  else if command = Command.delete then
    some (.change (.delete (a₁.next locals.userName) (a₂.next locals.fileName)))
  else if command = Command.listUsersList then some (.listUsers (a₁.next locals.userName))
  else if command = Command.listContentList then
    some (.listContent (a₁.next locals.useropName) (a₂.next locals.userName))
  else none

section Statuses

variable (c : SysCalls) (s : Store)

/-- The status is one of the five documented ones. -/
def Documented (r : Int × Store) : Prop := 0 ≤ r.1 ∧ r.1 ≤ 4

theorem Documented.ite {p : Prop} [Decidable p] {r r' : Int × Store} (h : Documented r)
    (h' : Documented r') : Documented (if p then r else r') := by
  split
  · exact h
  · exact h'

theorem documented_publish (u f d : Line) : Documented (publishFile.act c u f d s) := by
  unfold publishFile.act
  refine .ite (.ite (.ite ?_ (.ite ?_ ?_)) ?_) ?_
  · cases c.openCreate s.tree (strncat (userDirPath u.text) f.text f.length) with
    | none => simp [Documented]
    | some r =>
      dsimp only
      cases c.write r.1 r.2 (d.text.take d.length) with
      | none => simp [Documented]
      | some t => simp [Documented]
  all_goals simp [Documented]

/-- The status of a handler is one of the five documented ones. -/
theorem serve_status (address : Option Bytes) (r : Request) : Documented (serve c address r s) := by
  cases r with
  | register u =>
    refine Documented.ite ?_ (.ite ?_ ?_)
    · cases c.mkdir s.tree (userPath u.text) <;> simp [Documented]
    all_goals simp [Documented]
  | unregister u =>
    refine Documented.ite (.ite ?_ ?_) (.ite ?_ ?_)
    all_goals simp [Documented]
  | connect u port =>
    refine Documented.ite (.ite ?_ ?_) (.ite ?_ ?_)
    · simp [Documented]
    · cases address <;> simp [Documented]
    all_goals simp [Documented]
  | disconnect u =>
    refine Documented.ite (.ite ?_ ?_) (.ite ?_ ?_)
    all_goals simp [Documented]
  | publish u f d => exact documented_publish c s u f d
  | delete u f =>
    refine Documented.ite ?_ (.ite ?_ ?_)
    · cases c.remove s.tree (strncat (userDirPath u.text) f.text f.length) <;> simp [Documented]
    all_goals simp [Documented]

theorem serve_status_ne_selfReply (address : Option Bytes) (r : Request) :
    (serve c address r s).1 ≠ selfReply := by
  have hstatus := serve_status c s address r
  unfold Documented at hstatus
  unfold selfReply
  omega

end Statuses

/-! ### From the bytes to the reply -/

section Arrived

variable (c : SysCalls) (allocated : Bool) (locals : Locals) (address : Option Bytes) (s : Store)
  (a : Arrived)

theorem receive_userName :
    receive locals.userName (received a.bytes) =
      some (a.next locals.userName, received a.rest.bytes) :=
  receive_arrived (by decide) _ a

theorem registerUser_arrived :
    registerUser c locals ⟨received a.bytes, address⟩ s =
      serve c address (.register (a.next locals.userName)) s := by
  simp only [registerUser, receive_userName, serve]

theorem unregisterUser_arrived :
    unregisterUser c locals ⟨received a.bytes, address⟩ s =
      serve c address (.unregister (a.next locals.userName)) s := by
  simp only [unregisterUser, receive_userName, serve]

theorem connectUser_arrived :
    connectUser c locals ⟨received a.bytes, address⟩ s =
      serve c address (.connect (a.next locals.userName) (a.rest.next locals.userPort)) s := by
  simp only [connectUser, receive_userName, serve, getSocketAddress,
    receive_arrived (by decide : 1 < portSize) locals.userPort]

theorem disconnectUser_arrived :
    disconnectUser c locals ⟨received a.bytes, address⟩ s =
      serve c address (.disconnect (a.next locals.userName)) s := by
  simp only [disconnectUser, receive_userName, serve]

theorem publishFile_arrived :
    publishFile c locals ⟨received a.bytes, address⟩ s =
      serve c address (.publish (a.next locals.userName) (a.rest.next locals.fileName)
        (a.rest.rest.next locals.fileDescription)) s := by
  simp only [publishFile, receive_userName, serve,
    receive_arrived (by decide : 1 < maxSize) locals.fileName,
    receive_arrived (by decide : 1 < maxSize) locals.fileDescription]

theorem deleteFile_arrived :
    deleteFile c locals ⟨received a.bytes, address⟩ s =
      serve c address (.delete (a.next locals.userName) (a.rest.next locals.fileName)) s := by
  simp only [deleteFile, receive_userName, serve,
    receive_arrived (by decide : 1 < maxSize) locals.fileName]

theorem listUsers_arrived :
    listUsers allocated locals ⟨received a.bytes, address⟩ s = listUsers.act allocated s := by
  simp only [listUsers, receive_userName]

theorem listContent_arrived :
    listContent c locals ⟨received a.bytes, address⟩ s =
      listContent.act c (a.rest.next locals.userName).text s := by
  simp only [listContent, receive_userName,
    receive_arrived (by decide : 1 < maxSize) locals.useropName]

/-- One comparison of the selector, with the reply to the operation that it finds. -/
theorem reply_ite {p : Prop} [Decidable p] {r r' : Handled × Store} {op : Operation}
    {other : Option Operation} {unnamed : Bytes × Store}
    (h : (r.1.reply, r.2) = op.run c allocated address s)
    (h' : (r'.1.reply, r'.2) = match other with
      | some op => op.run c allocated address s
      | none => unnamed) :
    ((if p then r else r').1.reply, (if p then r else r').2) =
      match if p then some op else other with
      | some op => op.run c allocated address s
      | none => unnamed := by
  by_cases hp : p
  · rw [if_pos hp, if_pos hp]
    exact h
  · rw [if_neg hp, if_neg hp]
    exact h'

/-- **A connection, from its bytes to the reply**: the operation that they name is run on the store,
and bytes that name none leave it as it is. -/
theorem processRequest_arrived :
    processRequest c allocated locals ⟨received a.bytes, address⟩ s =
      match operationOf locals a with
      | some op => op.run c allocated address s
      | none => ((Handled.returns locals.output).reply, s) := by
  have hrun : ∀ r, ((Handled.returns (serve c address r s).1).reply, (serve c address r s).2) =
      (Operation.change r).run c allocated address s := by
    intro r
    simp only [Operation.run, Handled.reply, if_pos (serve_status_ne_selfReply c s address r)]
  simp only [processRequest, receive_arrived (by decide : 1 < maxSize) locals.message,
    commandSelector, operationOf, registerUser_arrived, unregisterUser_arrived,
    connectUser_arrived, disconnectUser_arrived, publishFile_arrived, deleteFile_arrived,
    listUsers_arrived, listContent_arrived]
  apply reply_ite c allocated address s (hrun _)
  apply reply_ite c allocated address s (hrun _)
  apply reply_ite c allocated address s (hrun _)
  apply reply_ite c allocated address s (hrun _)
  apply reply_ite c allocated address s (hrun _)
  apply reply_ite c allocated address s (hrun _)
  apply reply_ite c allocated address s rfl
  apply reply_ite c allocated address s rfl
  rfl

end Arrived

/-! ## The server, one request at a time -/

/-- The store that the service starts with. `main` goes on when `mkdir` fails. -/
def initP2pService (c : SysCalls) (t : Tree) : Store where
  tree := (c.mkdir t usersDirectory).getD t
  connected := []

/-- A request as it reaches its handler, from a connection with the given address. -/
structure Arrival where
  address : Option Bytes
  request : Request

/-- The server handles one request. -/
def ServerStep (cwd : Pos) (s : Store) (a : Arrival) (s' : Store) : Prop :=
  a.request.Delivered ∧ (serve (posix cwd) a.address a.request s).2 = s'

/-- The stores that the server can come to, started on any file tree. -/
def ServerReaches (cwd : Pos) : Store → Prop :=
  Reachable (fun s => ∃ t, s = initP2pService (posix cwd) t) (ServerStep cwd)

/-- Alice has registered with a new server. -/
def aliceRegistered : Store :=
  (registerUser.act (posix []) (cstring "alice") (initP2pService (posix []) .empty)).2

/-- She has also connected. -/
def aliceOnline : Store :=
  (connectUser.act (posix []) (some (cstring "127.0.0.1")) (cstring "alice") (cstring "4001")
    aliceRegistered).2

end DistributedSystems.Lab
