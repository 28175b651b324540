import DistributedSystems.Lab.ServerC.Server
import DistributedSystems.Lab.ServerRpc.StorageServer
import Mathlib.Algebra.Group.Int.Defs
import Mathlib.Algebra.Group.Nat.Defs

/-!
# The front end of the RPC server (`serverc/PeerToPeerRPC.c`)

Each handler reads its fields and passes them to a procedure of the storage daemon through a client
stub. `Stubs` are those stubs, which may fail; `Stubs.delivering` are the ones that deliver every
call and every result. The two listings have stubs of their own: their result is a list in the
memory of the front end, and its first element tells a listing from a failure.
-/

namespace DistributedSystems.Lab

open Fs

/-- The client stubs that `rpcgen` makes from `storage.x`: the result of the call, or none when it
is not `RPC_SUCCESS`, and the store of the daemon afterwards. -/
structure Stubs where
  registerUserRpc1 : Bytes → Store → Option Int × Store
  unregisterUserRpc1 : Bytes → Store → Option Int × Store
  connectUserRpc1 : ConnectArguments → Store → Option Int × Store
  disconnectUserRpc1 : Bytes → Store → Option Int × Store
  publishFileRpc1 : PublishArguments → Store → Option Int × Store
  deleteFileRpc1 : DeleteArguments → Store → Option Int × Store

/-- A call whose arguments and result arrive unchanged. -/
def delivered {α : Type} (svc : α → Store → Int × Store) (arg : α) (s : Store) :
    Option Int × Store :=
  (some (svc arg s).1, (svc arg s).2)

def Stubs.delivering (c : SysCalls) : Stubs where
  registerUserRpc1 := delivered (registerUserRpc1Svc c)
  unregisterUserRpc1 := delivered (unregisterUserRpc1Svc c)
  connectUserRpc1 := delivered (connectUserRpc1Svc c)
  disconnectUserRpc1 := delivered (disconnectUserRpc1Svc c)
  publishFileRpc1 := delivered (publishFileRpc1Svc c)
  deleteFileRpc1 := delivered (deleteFileRpc1Svc c)

/-- What a handler answers after a call, with its status for a failed one. -/
def answer (failed : Int) (ret : Option Int × Store) : Int × Store := (ret.1.getD failed, ret.2)

def registerUserRpc.act (stubs : Stubs) (userName : Bytes) (s : Store) : Int × Store :=
  answer 2 (stubs.registerUserRpc1 userName s)

def registerUserRpc (stubs : Stubs) (locals : Locals) (socket : Socket) (s : Store) :
    Int × Store :=
  match receive locals.userName socket.input with
  | none => (2, s)
  | some (userName, _) => registerUserRpc.act stubs userName.text s

def unregisterUserRpc.act (stubs : Stubs) (userName : Bytes) (s : Store) : Int × Store :=
  answer 2 (stubs.unregisterUserRpc1 userName s)

def unregisterUserRpc (stubs : Stubs) (locals : Locals) (socket : Socket) (s : Store) :
    Int × Store :=
  match receive locals.userName socket.input with
  | none => (2, s)
  | some (userName, _) => unregisterUserRpc.act stubs userName.text s

def connectUserRpc.act (stubs : Stubs) (address : Option Bytes) (userName userPort : Bytes)
    (s : Store) : Int × Store :=
  match address with
  | none => (3, s)
  | some clientAddress => answer 3 (stubs.connectUserRpc1 ⟨userName, userPort, clientAddress⟩ s)

def connectUserRpc (stubs : Stubs) (locals : Locals) (socket : Socket) (s : Store) : Int × Store :=
  match receive locals.userName socket.input with
  | none => (3, s)
  | some (userName, rest) =>
    match receive locals.userPort rest with
    | none => (3, s)
    | some (userPort, _) =>
      connectUserRpc.act stubs (getSocketAddress socket) userName.text userPort.text s

def disconnectUserRpc.act (stubs : Stubs) (userName : Bytes) (s : Store) : Int × Store :=
  answer 3 (stubs.disconnectUserRpc1 userName s)

def disconnectUserRpc (stubs : Stubs) (locals : Locals) (socket : Socket) (s : Store) :
    Int × Store :=
  match receive locals.userName socket.input with
  | none => (3, s)
  | some (userName, _) => disconnectUserRpc.act stubs userName.text s

def publishFileRpc.act (stubs : Stubs) (userName fileName fileDescription : Bytes) (s : Store) :
    Int × Store :=
  answer 4 (stubs.publishFileRpc1 ⟨userName, fileName, fileDescription⟩ s)

def publishFileRpc (stubs : Stubs) (locals : Locals) (socket : Socket) (s : Store) : Int × Store :=
  match receive locals.userName socket.input with
  | none => (4, s)
  | some (userName, rest) =>
    match receive locals.fileName rest with
    | none => (4, s)
    | some (fileName, rest) =>
      match receive locals.fileDescription rest with
      | none => (4, s)
      | some (fileDescription, _) =>
        publishFileRpc.act stubs userName.text fileName.text fileDescription.text s

def deleteFileRpc.act (stubs : Stubs) (userName fileName : Bytes) (s : Store) : Int × Store :=
  answer 4 (stubs.deleteFileRpc1 ⟨userName, fileName⟩ s)

def deleteFileRpc (stubs : Stubs) (locals : Locals) (socket : Socket) (s : Store) : Int × Store :=
  match receive locals.userName socket.input with
  | none => (4, s)
  | some (userName, rest) =>
    match receive locals.fileName rest with
    | none => (4, s)
    | some (fileName, _) => deleteFileRpc.act stubs userName.text fileName.text s

/-! ## Listings -/

/-- `isspace`. -/
def isSpace (ch : UInt8) : Bool := ch = 32 || (9 ≤ ch && ch ≤ 13)

/-- `isdigit`. -/
def isDigit (ch : UInt8) : Bool := 48 ≤ ch && ch ≤ 57

/-- The value of the digits that a string begins with. -/
def digitsValue (s : Bytes) : Nat :=
  (s.takeWhile isDigit).foldl (fun value ch => 10 * value + (ch.toNat - 48)) 0

/-- `strtol(nptr, NULL, 10)`, with the bounds of a `long`. -/
def strtol (nptr : Bytes) : Int :=
  let value : Int :=
    match nptr.dropWhile isSpace with
    | 45 :: rest => -digitsValue rest
    | 43 :: rest => digitsValue rest
    | rest => digitsValue rest
  max (-2 ^ 63) (min value (2 ^ 63 - 1))

/-- `atoi`: the `long` as an `int`. -/
def atoi (nptr : Bytes) : Int := (strtol nptr).bmod (2 ^ 32)

/-- `UserList` and `TitleList`: the length, and the elements that can be read. -/
structure ReceivedList (α : Type) where
  len : Nat
  val : List α
deriving DecidableEq, Repr

/-- A list as the daemon made it. -/
def ReceivedList.of {α : Type} (list : List α) : ReceivedList α := ⟨list.length, list⟩

/-- The elements below the length, unless one of them cannot be read. -/
def ReceivedList.elements {α : Type} (list : ReceivedList α) : Option (List α) :=
  if list.len ≤ list.val.length then some (list.val.take list.len) else none

/-- The client stubs of the listings: whether the call is `RPC_SUCCESS`, and what is in the result
afterwards. The daemon keeps its store. -/
structure ListStubs where
  listUsers1 : Bytes → Store → Bool × ReceivedList UserServer
  listContent1 : Bytes → Bytes → Store → Bool × ReceivedList Title

def ListStubs.delivering (c : SysCalls) (allocated : Bool) : ListStubs where
  listUsers1 _ s := (true, .of (listUsers1Svc allocated s))
  listContent1 _ userName s := (true, .of (listContent1Svc c userName s))

/-- The three lines of one received user. -/
def sendUserServer (user : UserServer) : Bytes :=
  sendField user.name ++ sendField user.ip ++ sendField user.port

/-- The bytes of the reply, or none when an element is read that is not there. The status of a
failed call does not last: the test of the first name replaces it. -/
def listUsersRpc.act (stubs : ListStubs) (userName : Bytes) (s : Store) : Option Bytes :=
  let usersList := (stubs.listUsers1 userName s).2
  match usersList.val.head? with
  | none => none
  | some first =>
    if atoi first.name = -1 then some (htonl 3)
    else
      usersList.elements.map fun users =>
        htonl 0 ++ htonl usersList.len ++ users.flatMap sendUserServer

def listUsersRpc (stubs : ListStubs) (locals : Locals) (socket : Socket) (s : Store) :
    Option Bytes :=
  match receive locals.userName socket.input with
  | none => some (htonl 3)
  | some (userName, _) => listUsersRpc.act stubs userName.text s

/-- The titles of a listing. -/
def sendTitles (titleList : ReceivedList Title) : Option Bytes :=
  titleList.elements.map fun titles =>
    htonl 0 ++ htonl titleList.len ++ titles.flatMap fun title => sendField title.fileName

/-- As `listUsersRpc.act`, except that an empty list is a listing. -/
def listContentRpc.act (stubs : ListStubs) (useropName userName : Bytes) (s : Store) :
    Option Bytes :=
  let titleList := (stubs.listContent1 useropName userName s).2
  if titleList.len = 0 then sendTitles titleList
  else
    match titleList.val.head? with
    | none => none
    | some first =>
      if atoi first.fileName = -1 then some (htonl 4)
      else if atoi first.fileName = -2 then some (htonl 3)
      else sendTitles titleList

def listContentRpc (stubs : ListStubs) (locals : Locals) (socket : Socket) (s : Store) :
    Option Bytes :=
  match receive locals.useropName socket.input with
  | none => some (htonl 4)
  | some (useropName, rest) =>
    match receive locals.userName rest with
    | none => some (htonl 4)
    | some (userName, _) => listContentRpc.act stubs useropName.text userName.text s

/-! ## Requests -/

/-- What the handler of a request does once the fields are read: the status and the store. -/
def serveRpc (stubs : Stubs) (address : Option Bytes) : Request → Store → Int × Store
  | .register userName => registerUserRpc.act stubs userName.text
  | .unregister userName => unregisterUserRpc.act stubs userName.text
  | .connect userName userPort => connectUserRpc.act stubs address userName.text userPort.text
  | .disconnect userName => disconnectUserRpc.act stubs userName.text
  | .publish userName fileName fileDescription =>
    publishFileRpc.act stubs userName.text fileName.text fileDescription.text
  | .delete userName fileName => deleteFileRpc.act stubs userName.text fileName.text

/-! ### From the bytes of a connection -/

section Arrived

variable (stubs : Stubs) (locals : Locals) (address : Option Bytes) (s : Store) (a : Arrived)

theorem registerUserRpc_arrived :
    registerUserRpc stubs locals ⟨received a.bytes, address⟩ s =
      serveRpc stubs address (.register (a.next locals.userName)) s := by
  simp only [registerUserRpc, receive_userName, serveRpc]

theorem unregisterUserRpc_arrived :
    unregisterUserRpc stubs locals ⟨received a.bytes, address⟩ s =
      serveRpc stubs address (.unregister (a.next locals.userName)) s := by
  simp only [unregisterUserRpc, receive_userName, serveRpc]

theorem connectUserRpc_arrived :
    connectUserRpc stubs locals ⟨received a.bytes, address⟩ s =
      serveRpc stubs address (.connect (a.next locals.userName) (a.rest.next locals.userPort))
        s := by
  simp only [connectUserRpc, receive_userName, serveRpc, getSocketAddress,
    receive_arrived (by decide : 1 < portSize) locals.userPort]

theorem disconnectUserRpc_arrived :
    disconnectUserRpc stubs locals ⟨received a.bytes, address⟩ s =
      serveRpc stubs address (.disconnect (a.next locals.userName)) s := by
  simp only [disconnectUserRpc, receive_userName, serveRpc]

theorem publishFileRpc_arrived :
    publishFileRpc stubs locals ⟨received a.bytes, address⟩ s =
      serveRpc stubs address (.publish (a.next locals.userName) (a.rest.next locals.fileName)
        (a.rest.rest.next locals.fileDescription)) s := by
  simp only [publishFileRpc, receive_userName, serveRpc,
    receive_arrived (by decide : 1 < maxSize) locals.fileName,
    receive_arrived (by decide : 1 < maxSize) locals.fileDescription]

theorem deleteFileRpc_arrived :
    deleteFileRpc stubs locals ⟨received a.bytes, address⟩ s =
      serveRpc stubs address (.delete (a.next locals.userName) (a.rest.next locals.fileName))
        s := by
  simp only [deleteFileRpc, receive_userName, serveRpc,
    receive_arrived (by decide : 1 < maxSize) locals.fileName]

theorem listUsersRpc_arrived (listStubs : ListStubs) :
    listUsersRpc listStubs locals ⟨received a.bytes, address⟩ s =
      listUsersRpc.act listStubs (a.next locals.userName).text s := by
  simp only [listUsersRpc, receive_userName]

theorem listContentRpc_arrived (listStubs : ListStubs) :
    listContentRpc listStubs locals ⟨received a.bytes, address⟩ s =
      listContentRpc.act listStubs (a.next locals.useropName).text
        (a.rest.next locals.userName).text s := by
  simp only [listContentRpc, receive_userName,
    receive_arrived (by decide : 1 < maxSize) locals.useropName]

end Arrived

end DistributedSystems.Lab
