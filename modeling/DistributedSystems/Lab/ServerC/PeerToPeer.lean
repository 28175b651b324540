import DistributedSystems.Lab.Lib.Auxiliary
import DistributedSystems.Lab.Lib.Fields
import DistributedSystems.Lab.Lib.LinkedList

/-!
# The in-process server (`serverc/PeerToPeer.c`)

Each handler reads its fields from the socket and then acts on the store; the second part stands on
its own under the name `act`. A field keeps both the text of its buffer and the length that
`readLine` answered, because some handlers use one and some the other: at the end of the stream the
length is 0 and the buffer is whatever it was before.

The store is the file tree and the list of connected users. Allocations succeed, except the array of
`get_elements`, whose failure the code answers. A path that `strncat` extends is the extended
string, whether or not the array behind it was long enough.
-/

namespace DistributedSystems.Lab

open Fs

/-! ## Return values -/

@[simp] abbrev success : Int := 0
@[simp] abbrev userRegistered : Int := 1
@[simp] abbrev userNotRegistered : Int := 1
@[simp] abbrev userConnected : Int := 2
@[simp] abbrev userNotConnected : Int := 2
@[simp] abbrev filePublished : Int := 3
@[simp] abbrev fileNotPublished : Int := 3
@[simp] abbrev noContentToList : Int := 3
@[simp] abbrev otherError2 : Int := 2
@[simp] abbrev otherError3 : Int := 3
@[simp] abbrev otherError4 : Int := 4

/-! ## State and inputs -/

/-- What the server keeps: the file tree and `connected_users`. -/
structure Store where
  tree : Tree
  connected : List UserServerData
deriving DecidableEq

/-- A connection: what reading from it yields, and the address that `getsockname` gives for it. -/
structure Socket where
  input : List ReadOutcome
  sockname : Option Bytes

def getSocketAddress (socket : Socket) : Option Bytes := socket.sockname

/-- The contents that local variables have before anything is stored in them. The pointer
`directory` of `list_content` is with the calls of a thread (`Traced.Variables`). -/
structure Locals where
  message : Buffer maxSize
  userName : Buffer maxSize
  useropName : Buffer maxSize
  userPort : Buffer portSize
  fileName : Buffer maxSize
  fileDescription : Buffer maxSize
  output : Int

/-- `sprintf(dir_path, "%s/%s", USERS_DIRECTORY, user_name)`. -/
def userPath (userName : Bytes) : Bytes := usersDirectory ++ slash :: userName

/-- `sprintf(dir_path, "%s/%s/", USERS_DIRECTORY, user_name)`. -/
def userDirPath (userName : Bytes) : Bytes := userPath userName ++ [slash]

/-- `strncat(dest, src, n)`. -/
def strncat (dest src : Bytes) (n : Nat) : Bytes := dest ++ src.take n

/-- Variables that happen to hold zeros. -/
def Locals.zeros : Locals where
  message := .zeros _
  userName := .zeros _
  useropName := .zeros _
  userPort := .zeros _
  fileName := .zeros _
  fileDescription := .zeros _
  output := 0

/-! ## Users -/

def registerUser.act (c : SysCalls) (userName : Bytes) (s : Store) : Int × Store :=
  let registered := isusrRegistered c s.tree userName
  if registered = 0 then
    match c.mkdir s.tree (userPath userName) with
    | none => (otherError2, s)
    | some t => (success, { s with tree := t })
  else if registered = 1 then (userRegistered, s)
  else (otherError2, s)

def registerUser (c : SysCalls) (locals : Locals) (socket : Socket) (s : Store) : Int × Store :=
  match receive locals.userName socket.input with
  | none => (otherError2, s)
  | some (userName, _) => registerUser.act c userName.text s

def unregisterUser.act (c : SysCalls) (userName : Bytes) (s : Store) : Int × Store :=
  let registered := isusrRegistered c s.tree userName
  if registered = 1 then
    let r := removeDirectory c s.tree (userPath userName)
    if r.1 = -1 then (otherError2, { s with tree := r.2 })
    else (success, { tree := r.2, connected := deleteElement userName s.connected })
  else if registered = 0 then (userNotRegistered, s)
  else (otherError2, s)

def unregisterUser (c : SysCalls) (locals : Locals) (socket : Socket) (s : Store) : Int × Store :=
  match receive locals.userName socket.input with
  | none => (otherError2, s)
  | some (userName, _) => unregisterUser.act c userName.text s

def connectUser.act (c : SysCalls) (address : Option Bytes) (userName userPort : Bytes)
    (s : Store) : Int × Store :=
  let registered := isusrRegistered c s.tree userName
  if registered = 1 then
    if findElementByname s.connected userName ≠ 0 then (userConnected, s)
    else
      match address with
      | none => (otherError3, s)
      | some clientAddress =>
        (success, { s with
          connected := addElement ⟨userName, userPort, clientAddress⟩ s.connected })
  else if registered = 0 then (userNotRegistered, s)
  else (otherError3, s)

def connectUser (c : SysCalls) (locals : Locals) (socket : Socket) (s : Store) : Int × Store :=
  match receive locals.userName socket.input with
  | none => (otherError3, s)
  | some (userName, rest) =>
    match receive locals.userPort rest with
    | none => (otherError3, s)
    | some (userPort, _) =>
      connectUser.act c (getSocketAddress socket) userName.text userPort.text s

def disconnectUser.act (c : SysCalls) (userName : Bytes) (s : Store) : Int × Store :=
  let registered := isusrRegistered c s.tree userName
  if registered = 1 then
    if findElementByname s.connected userName ≠ 0 then
      (success, { s with connected := deleteElement userName s.connected })
    else (userNotConnected, s)
  else if registered = 0 then (userNotRegistered, s)
  else (otherError3, s)

def disconnectUser (c : SysCalls) (locals : Locals) (socket : Socket) (s : Store) : Int × Store :=
  match receive locals.userName socket.input with
  | none => (otherError3, s)
  | some (userName, _) => disconnectUser.act c userName.text s

/-! ## Files -/

def publishFile.act (c : SysCalls) (userName fileName fileDescription : Line) (s : Store) :
    Int × Store :=
  if isusrRegistered c s.tree userName.text = 1 then
    if findElementByname s.connected userName.text ≠ 0 then
      let dirPath := userDirPath userName.text
      let file := fileExists c s.tree fileName.text dirPath
      if file = 0 then
        match c.openCreate s.tree (strncat dirPath fileName.text fileName.length) with
        | none => (otherError4, s)
        | some (t, fd) =>
          match c.write t fd (fileDescription.text.take fileDescription.length) with
          | none => (otherError4, { s with tree := t })
          | some t' => (success, { s with tree := t' })
      else if file = 1 then (filePublished, s)
      else (otherError4, s)
    else (userNotConnected, s)
  else (userNotRegistered, s)

def publishFile (c : SysCalls) (locals : Locals) (socket : Socket) (s : Store) : Int × Store :=
  match receive locals.userName socket.input with
  | none => (otherError4, s)
  | some (userName, rest) =>
    match receive locals.fileName rest with
    | none => (otherError4, s)
    | some (fileName, rest) =>
      match receive locals.fileDescription rest with
      | none => (otherError4, s)
      | some (fileDescription, _) => publishFile.act c userName fileName fileDescription s

def deleteFile.act (c : SysCalls) (userName fileName : Line) (s : Store) : Int × Store :=
  let dirPath := userDirPath userName.text
  let file := fileExists c s.tree fileName.text dirPath
  if file = 1 then
    match c.remove s.tree (strncat dirPath fileName.text fileName.length) with
    | none => (otherError4, s)
    | some t => (success, { s with tree := t })
  else if file = 0 then (fileNotPublished, s)
  else (otherError4, s)

def deleteFile (c : SysCalls) (locals : Locals) (socket : Socket) (s : Store) : Int × Store :=
  match receive locals.userName socket.input with
  | none => (otherError4, s)
  | some (userName, rest) =>
    match receive locals.fileName rest with
    | none => (otherError4, s)
    | some (fileName, _) => deleteFile.act c userName fileName s

/-! ## Listings

These two send their own reply, whose bytes are the result here; no write fails. -/

/-- `htonl`, as the four bytes that go on the wire. -/
def htonl (n : Int) : Bytes :=
  let w := (n % 4294967296).toNat
  [UInt8.ofNat (w / 16777216 % 256), UInt8.ofNat (w / 65536 % 256), UInt8.ofNat (w / 256 % 256),
    UInt8.ofNat (w % 256)]

/-- A string with its NUL, as one line of a listing. -/
def sendField (field : Bytes) : Bytes := writeLine (field ++ [nul])

/-- The three lines of one connected user. -/
def sendUser (user : UserServerData) : Bytes :=
  sendField user.name ++ sendField user.ipAddress ++ sendField user.port

/-- `allocated` says whether `get_elements` got its array. -/
def listUsers.act (allocated : Bool) (s : Store) : Bytes :=
  if allocated then
    htonl success ++ htonl (listGetSize s.connected) ++
      ((getElements s.connected).take (listGetSize s.connected)).flatMap sendUser
  else htonl otherError3

def listUsers (allocated : Bool) (locals : Locals) (socket : Socket) (s : Store) : Bytes :=
  match receive locals.userName socket.input with
  | none => htonl otherError3
  | some _ => listUsers.act allocated s

/-- The file names of a listing: the entries without the two dot names. -/
def fileNames (entries : List Bytes) : List Bytes :=
  entries.filter fun dName => ¬ (dName = dot ∨ dName = dotDot)

/-- What `list_content` sends. Its `closedir`, which comes after that, is with the calls of a thread
(`Traced.listContent`). -/
def listContent.act (c : SysCalls) (userName : Bytes) (s : Store) : Bytes :=
  if isusrRegistered c s.tree userName ≠ 0 then
    match c.opendir s.tree (userDirPath userName) with
    | none => htonl otherError4
    | some entries =>
      htonl success ++ htonl (fileNames entries).length ++ (fileNames entries).flatMap sendField
  else htonl noContentToList

def listContent (c : SysCalls) (locals : Locals) (socket : Socket) (s : Store) : Bytes :=
  match receive locals.useropName socket.input with
  | none => htonl otherError4
  | some (_, rest) =>
    match receive locals.userName rest with
    | none => htonl otherError4
    | some (userName, _) => listContent.act c userName.text s

/-! ## Requests -/

/-- A request whose fields have been read. -/
inductive Request
  | register (userName : Line)
  | unregister (userName : Line)
  | connect (userName userPort : Line)
  | disconnect (userName : Line)
  | publish (userName fileName fileDescription : Line)
  | delete (userName fileName : Line)
deriving DecidableEq, Repr

namespace Request

/-- The user that the request names. -/
def user : Request → Bytes
  | register userName => userName.text
  | unregister userName => userName.text
  | connect userName _ => userName.text
  | disconnect userName => userName.text
  | publish userName _ _ => userName.text
  | delete userName _ => userName.text

end Request

/-- The fields of the request arrived whole. -/
def Request.Delivered : Request → Prop
  | .register userName => userName.Delivered maxSize
  | .unregister userName => userName.Delivered maxSize
  | .connect userName userPort => userName.Delivered maxSize ∧ userPort.Delivered portSize
  | .disconnect userName => userName.Delivered maxSize
  | .publish userName fileName fileDescription =>
    userName.Delivered maxSize ∧ fileName.Delivered maxSize ∧ fileDescription.Delivered maxSize
  | .delete userName fileName => userName.Delivered maxSize ∧ fileName.Delivered maxSize

instance : DecidablePred Request.Delivered
  | .register _ => inferInstanceAs (Decidable (Line.Delivered _ _))
  | .unregister _ => inferInstanceAs (Decidable (Line.Delivered _ _))
  | .connect _ _ => inferInstanceAs (Decidable (_ ∧ _))
  | .disconnect _ => inferInstanceAs (Decidable (Line.Delivered _ _))
  | .publish _ _ _ => inferInstanceAs (Decidable (_ ∧ _ ∧ _))
  | .delete _ _ => inferInstanceAs (Decidable (_ ∧ _))

/-- What the handler of a request does once the fields are read: the status and the store. -/
def serve (c : SysCalls) (address : Option Bytes) : Request → Store → Int × Store
  | .register userName => registerUser.act c userName.text
  | .unregister userName => unregisterUser.act c userName.text
  | .connect userName userPort => connectUser.act c address userName.text userPort.text
  | .disconnect userName => disconnectUser.act c userName.text
  | .publish userName fileName fileDescription =>
    publishFile.act c userName fileName fileDescription
  | .delete userName fileName => deleteFile.act c userName fileName

end DistributedSystems.Lab
