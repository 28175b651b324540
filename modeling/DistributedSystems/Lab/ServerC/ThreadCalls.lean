import DistributedSystems.Lab.ServerC.Server
import DistributedSystems.Lab.ServerRpc.Daemon
import DistributedSystems.Lab.ServerC.PeerToPeerRpc
import DistributedSystems.Support.Traces

/-!
# Threads by their calls

A thread of the server as a program of the calls whose order and outcome matter: those on its
socket, those on directories, the calls of the RPC client and the accesses to what they leave. A
`send` or `write` may take all of its bytes, some of them, or fail. What a handler does with the
store once its fields are read is one call (`Call.change`).

The names that `readdir` will yield come with the answer of `opendir`, so that every loop over a
directory ends. A pointer to a directory is the number of an opened one, or none for NULL.
-/

namespace DistributedSystems.Lab.Traced

open Fs Support

/-! ## Calls -/

/-- An open directory, and the names that `readdir` yields of it. -/
structure Directory where
  handle : Nat
  names : List Bytes
deriving DecidableEq, Repr

inductive Call
  /-- `readLine` on the socket. -/
  | readLine {size : Nat} (buffer : Buffer size)
  | getSocketAddress
  | send (data : Bytes)
  /-- `write` on the socket. -/
  | write (data : Bytes)
  /-- `close` of the socket. -/
  | close
  | opendir (path : Bytes)
  | readdir (directory : Option Nat)
  | rewinddir (directory : Option Nat)
  | closedir (directory : Option Nat)
  | malloc (path : Bytes)
  | stat (path : Bytes)
  | unlink (path : Bytes)
  | rmdir (path : Bytes)
  /-- What a handler does with its fields. CONNECT asks the socket for its address. -/
  | change (request : Request)
  | getElements
  | listGetSize
  /-- A call through a client stub. -/
  | rpc (procedure : Procedure)
  /-- Read the `int` that the call was given a pointer to. -/
  | result
  /-- Read the `UserList` that the call was given a pointer to: its length, or an element. -/
  | userListLen
  | userListVal (ii : Nat)
  | titleListLen
  | titleListVal (ii : Nat)

/-- The answers. `none` is a -1 or a NULL, and for an element of a list one that is not there. -/
abbrev Call.Answer : Call → Type
  | .readLine _ => Option Line
  | .getSocketAddress => Option Bytes
  | .send _ => Option Nat
  | .write _ => Option Nat
  | .opendir _ => Option Directory
  | .malloc _ => Bool
  | .stat _ => Option Entry
  | .unlink _ => Int
  | .rmdir _ => Int
  | .change _ => Int
  | .getElements => Option (List UserServerData)
  | .listGetSize => Nat
  | .rpc _ => Int
  | .result => Int
  | .userListLen => Nat
  | .userListVal _ => Option UserServer
  | .titleListLen => Nat
  | .titleListVal _ => Option Title
  | _ => Unit

/-- How a `send` or a `write` turns out. -/
inductive Outcome
  | whole
  /-- It takes this many bytes, if there are as many. -/
  | short (n : Nat)
  | failed
deriving DecidableEq, Repr

/-- How many bytes it takes. -/
def Outcome.taken (data : Bytes) : Outcome → Option Nat
  | .whole => some data.length
  | .short n => some (min n data.length)
  | .failed => none

/-- The memory that a call through a stub leaves its result in. -/
structure Results where
  result : Int
  users : ReceivedList UserServer
  titles : ReceivedList Title

/-- What a call through a stub does: its `clnt_stat`, the memory of the result, which may hold
anything when the call has failed, and the store of the daemon. -/
structure RpcReply where
  ret : Int
  results : Results
  store : Store

def rpcSuccess : Int := 0

/-- What does not change while the thread runs. -/
structure Env where
  calls : SysCalls
  allocated : Bool
  address : Option Bytes
  rpc : Procedure → Store → RpcReply

/-- What the calls of the thread go by. -/
structure World where
  store : Store
  /-- What reading from the socket yields. -/
  input : List ReadOutcome
  /-- The outcomes of the sends and writes to come. -/
  outcomes : Nat → Outcome
  /-- How many directories have been opened. -/
  opened : Nat
  results : Results

namespace World

variable (w : World)

/-- A `send` or `write` on the socket. -/
def put (data : Bytes) : Option Nat × World :=
  ((w.outcomes 0).taken data, { w with outcomes := fun n => w.outcomes (n + 1) })

/-- A call that changes the tree or fails. -/
def changeTree : Option Tree → Int × World
  | none => (-1, w)
  | some t => (0, { w with store := { w.store with tree := t } })

end World

/-- One call that returns. `closedir` does so also for a pointer of no open directory; the thread
that ends there instead is in `ThreadEnds.lean`. -/
def exec (env : Env) : (a : Call) → World → a.Answer × World
  | @Call.readLine size buffer, w =>
    let r := Lab.readLine size buffer w.input
    ((receive buffer w.input).map Prod.fst, { w with input := r.rest })
  | .getSocketAddress, w => (env.address, w)
  | .send data, w => w.put data
  | .write data, w => w.put data
  | .close, w => ((), w)
  | .opendir path, w =>
    match env.calls.opendir w.store.tree path with
    | none => (none, w)
    | some names => (some ⟨w.opened, names⟩, { w with opened := w.opened + 1 })
  | .readdir _, w => ((), w)
  | .rewinddir _, w => ((), w)
  | .closedir _, w => ((), w)
  | .malloc path, w => (env.calls.malloc w.store.tree path, w)
  | .stat path, w => (env.calls.stat w.store.tree path, w)
  | .unlink path, w => w.changeTree (env.calls.unlink w.store.tree path)
  | .rmdir path, w => w.changeTree (env.calls.rmdir w.store.tree path)
  | .change request, w =>
    let r := serve env.calls env.address request w.store
    (r.1, { w with store := r.2 })
  | .getElements, w => (if env.allocated then some (getElements w.store.connected) else none, w)
  | .listGetSize, w => (listGetSize w.store.connected, w)
  | .rpc procedure, w =>
    let r := env.rpc procedure w.store
    (r.ret, { w with store := r.store, results := r.results })
  | .result, w => (w.results.result, w)
  | .userListLen, w => (w.results.users.len, w)
  | .userListVal ii, w => (w.results.users.val[ii]?, w)
  | .titleListLen, w => (w.results.titles.len, w)
  | .titleListVal ii, w => (w.results.titles.val[ii]?, w)

theorem exec_readLine_none {size : Nat} {buffer : Buffer size} {w : World} (env : Env)
    (h : receive buffer w.input = none) :
    ∃ rest, exec env (.readLine buffer) w = (none, { w with input := rest }) :=
  ⟨(Lab.readLine size buffer w.input).rest, by simp only [exec, h, Option.map_none]⟩

theorem exec_readLine_some {size : Nat} {buffer : Buffer size} {w : World} {line : Line}
    {rest : List ReadOutcome} (env : Env) (h : receive buffer w.input = some (line, rest)) :
    exec env (.readLine buffer) w = (some line, { w with input := rest }) := by
  have hrest : (Lab.readLine size buffer w.input).rest = rest := by
    simp only [receive] at h
    split at h
    · cases h
    · exact congrArg Prod.snd (Option.some.inj h)
  simp only [exec, h, Option.map_some, hrest]

theorem exec_opendir_none {path : Bytes} {w : World} {env : Env}
    (h : env.calls.opendir w.store.tree path = none) :
    exec env (.opendir path) w = (none, w) := by
  simp only [exec, h]

theorem exec_opendir_some {path : Bytes} {names : List Bytes} {w : World} {env : Env}
    (h : env.calls.opendir w.store.tree path = some names) :
    exec env (.opendir path) w = (some ⟨w.opened, names⟩, { w with opened := w.opened + 1 }) := by
  simp only [exec, h]

/-! ## Directories (`lib/auxiliary.c`) -/

abbrev Part (ρ : Type) := Program Call.Answer ρ

/-- The loop over `readdir` that looks for a name. -/
def scan (directory : Option Nat) (name : Bytes) : List Bytes → Part Int
  | [] =>
    .call (.readdir directory) fun _ =>
    .call (.closedir directory) fun _ => .done 0
  | dName :: rest =>
    .call (.readdir directory) fun _ =>
    if dName = name then .call (.closedir directory) fun _ => .done 1
    else scan directory name rest

def searchDirectory (path name : Bytes) : Part Int :=
  .call (.opendir path) fun
    | none => .call (.closedir none) fun _ => .done (-1)
    | some directory => scan (some directory.handle) name directory.names

def isusrRegistered (userName : Bytes) : Part Int := searchDirectory usersDirectory userName

def fileExists (fileName directoryPath : Bytes) : Part Int :=
  searchDirectory directoryPath fileName

section Lookups

variable (env : Env)

theorem run_scan (directory : Option Nat) (name : Bytes) (names : List Bytes) (w : World) :
    (scan directory name names).run (exec env) w = (Lab.scan names name, w) := by
  induction names with
  | nil => rfl
  | cons dName rest ih =>
    simp only [scan, Lab.scan, Program.run_call, exec]
    by_cases hname : dName = name
    · rw [if_pos hname, if_pos hname]
      rfl
    · rw [if_neg hname, if_neg hname]
      exact ih

/-- The lookup answers as without its calls, and opens at most one directory. -/
theorem run_searchDirectory (path name : Bytes) (w : World) :
    ∃ n, (searchDirectory path name).run (exec env) w =
      (Lab.searchDirectory env.calls w.store.tree path name, { w with opened := n }) := by
  unfold searchDirectory Lab.searchDirectory
  simp only [Program.run_call, exec]
  cases env.calls.opendir w.store.tree path with
  | none => exact ⟨w.opened, rfl⟩
  | some names => exact ⟨w.opened + 1, run_scan env _ _ _ _⟩

theorem run_isusrRegistered (userName : Bytes) (w : World) :
    ∃ n, (isusrRegistered userName).run (exec env) w =
      (Lab.isusrRegistered env.calls w.store.tree userName, { w with opened := n }) :=
  run_searchDirectory env _ _ w

end Lookups

def removeEntry (recurse : Bytes → Part Int) (buf : Bytes) : Part Int :=
  .call (.malloc buf) fun
    | false => .done (-1)
    | true =>
      .call (.stat buf) fun
        | none => .done (-1)
        | some .dir => recurse buf
        | some (.file _) => .call (.unlink buf) .done

/-- The loop of `remove_directory`. It does not look for another name after an entry that cannot be
removed. -/
def removeEntries (recurse : Bytes → Part Int) (directory : Option Nat) (path : Bytes) :
    List Bytes → Part Int
  | [] => .call (.readdir directory) fun _ => .done 0
  | dName :: rest =>
    .call (.readdir directory) fun _ =>
    if dName = dot ∨ dName = dotDot then removeEntries recurse directory path rest
    else (removeEntry recurse (path ++ slash :: dName)).bind fun r =>
      if r = 0 then removeEntries recurse directory path rest else .done r

/-- `remove_directory`, to this depth. -/
def removeDirectory : Nat → Bytes → Part Int
  | 0, _ => .done (-1)
  | depth + 1, path =>
    .call (.opendir path) fun
      | none => .done (-1)
      | some directory =>
        (removeEntries (removeDirectory depth) (some directory.handle) path directory.names).bind
          fun r =>
          .call (.closedir (some directory.handle)) fun _ =>
          if r = 0 then .call (.rmdir path) .done else .done r

/-! ## Listings -/

/-- `writeLine(fd, data, n)`. -/
def writeLine (data : Bytes) : Part Int :=
  .call (.write data) fun
    | none => .done (-1)
    | some _ =>
      .call (.write [newline]) fun
        | none => .done (-1)
        | some _ => .done 0

/-- Each string with its NUL. A failure is printed, and the next one follows. -/
def sendFields : List Bytes → Part Unit
  | [] => .done ()
  | field :: rest => (writeLine (field ++ [nul])).bind fun _ => sendFields rest

/-- The fields of a user in a listing. -/
def userFields (user : UserServerData) : List Bytes := [user.name, user.ipAddress, user.port]

/-- `close(socket)` and the end of the thread. -/
def closeSocket : Part Unit := .call .close .done

def listUsers.sized (users : List UserServerData) (numberUsers : Nat) : Part Unit :=
  .call (.send (htonl numberUsers)) fun
    | none => closeSocket
    | some _ => (sendFields ((users.take numberUsers).flatMap userFields)).bind fun _ => closeSocket

def listUsers.copied : Option (List UserServerData) → Part Unit
  | none => .call (.send (htonl otherError3)) fun _ => closeSocket
  | some users =>
    .call (.send (htonl success)) fun
      | none => closeSocket
      | some _ => .call .listGetSize (listUsers.sized users)

/-- The thread ends without a reply to come, and with its socket open. -/
def refuse (status : Int) : Part Unit := .call (.send (htonl status)) fun _ => .done ()

def listUsers (locals : Locals) : Part Unit :=
  .call (.readLine locals.userName) fun
    | none => refuse otherError3
    | some _ => .call .getElements listUsers.copied

/-- A loop over `readdir` to the end, as its calls. -/
def countEntries (directory : Option Nat) : List Bytes → Part Unit
  | [] => .call (.readdir directory) fun _ => .done ()
  | _ :: rest => .call (.readdir directory) fun _ => countEntries directory rest

/-- The loop over `readdir` that sends the file names. -/
def sendEntries (directory : Option Nat) : List Bytes → Part Unit
  | [] => .call (.readdir directory) fun _ => .done ()
  | dName :: rest =>
    .call (.readdir directory) fun _ =>
    if dName = dot ∨ dName = dotDot then sendEntries directory rest
    else (writeLine (dName ++ [nul])).bind fun _ => sendEntries directory rest

/-- `closedir(directory)`, `close(socket)` and the end of the thread. -/
def listContent.finish (directory : Option Nat) : Part Unit :=
  .call (.closedir directory) fun _ => closeSocket

/-- A status other than success. -/
def listContent.failed (status : Int) (directory : Option Nat) : Part Unit :=
  .call (.send (htonl status)) fun _ => listContent.finish directory

def listContent.counted (directory : Directory) : Part Unit :=
  .call (.rewinddir (some directory.handle)) fun _ =>
  .call (.send (htonl success)) fun
    | none => listContent.finish (some directory.handle)
    | some _ =>
      .call (.send (htonl (fileNames directory.names).length)) fun
        | none => listContent.finish (some directory.handle)
        | some _ =>
          (sendEntries (some directory.handle) directory.names).bind fun _ =>
          listContent.finish (some directory.handle)

def listContent.opened : Option Directory → Part Unit
  | none => .call (.closedir none) fun _ => listContent.failed otherError4 none
  | some directory =>
    (countEntries (some directory.handle) directory.names).bind fun _ =>
    listContent.counted directory

/-- The variables of a thread. `directory` is the one of `list_content`. -/
structure Variables extends Locals where
  directory : Option Nat

def listContent.checked (v : Variables) (userName : Bytes) (registered : Int) : Part Unit :=
  if registered ≠ 0 then .call (.opendir (userDirPath userName)) listContent.opened
  -- nothing has been stored to `directory`
  else listContent.failed noContentToList v.directory

def listContent (v : Variables) : Part Unit :=
  .call (.readLine v.useropName) fun
    | none => refuse otherError4
    | some _ =>
      .call (.readLine v.userName) fun
        | none => refuse otherError4
        | some userName =>
          (isusrRegistered userName.text).bind (listContent.checked v userName.text)

/-- The loop over `readdir` that stores the titles, as its calls. -/
def listTitles (directory : Directory) : Part (List Title) :=
  (countEntries (some directory.handle) directory.names).bind fun _ =>
  .done ((fileNames directory.names).map Title.mk)

/-- Nothing closes the directory after it has been opened. -/
def listContent1Svc.checked (arg2 : Bytes) (registered : Int) : Part (List Title) :=
  if registered = 0 then .done [⟨cstring "-2"⟩]
  else
    .call (.opendir (userDirPath arg2)) fun
      | none => .call (.closedir none) fun _ => .done [⟨cstring "-1"⟩]
      | some directory =>
        (countEntries (some directory.handle) directory.names).bind fun _ =>
        .call (.rewinddir (some directory.handle)) fun _ => listTitles directory

/-- `list_content_1_svc` of the daemon. -/
def listContent1Svc (arg2 : Bytes) : Part (List Title) :=
  (isusrRegistered arg2).bind (listContent1Svc.checked arg2)

/-! ### Which calls they make -/

section Always

variable {Q : Call → Prop}

theorem always_writeLine (hwrite : ∀ data, Q (.write data)) (data : Bytes) :
    (writeLine data).Always fun a _ => Q a := by
  refine ⟨hwrite _, fun x => ?_⟩
  cases x with
  | none => trivial
  | some _ =>
    refine ⟨hwrite _, fun y => ?_⟩
    cases y <;> trivial

theorem always_sendFields (hwrite : ∀ data, Q (.write data)) (fields : List Bytes) :
    (sendFields fields).Always fun a _ => Q a := by
  induction fields with
  | nil => trivial
  | cons field rest ih => exact Program.always_bind (always_writeLine hwrite _) fun _ => ih

theorem always_countEntries (hread : ∀ directory, Q (.readdir directory))
    (directory : Option Nat) (names : List Bytes) :
    (countEntries directory names).Always fun a _ => Q a := by
  induction names with
  | nil => exact ⟨hread _, fun _ => trivial⟩
  | cons dName rest ih => exact ⟨hread _, fun _ => ih⟩

theorem always_sendEntries (hwrite : ∀ data, Q (.write data))
    (hread : ∀ directory, Q (.readdir directory)) (directory : Option Nat) (names : List Bytes) :
    (sendEntries directory names).Always fun a _ => Q a := by
  induction names with
  | nil => exact ⟨hread _, fun _ => trivial⟩
  | cons dName rest ih =>
    refine ⟨hread _, fun _ => ?_⟩
    by_cases hdot : dName = dot ∨ dName = dotDot
    · rw [if_pos hdot]
      exact ih
    · rw [if_neg hdot]
      exact Program.always_bind (always_writeLine hwrite _) fun _ => ih

theorem always_closeSocket (hclose : Q .close) : closeSocket.Always fun a _ => Q a :=
  ⟨hclose, fun _ => trivial⟩

theorem always_refuse (hsend : ∀ data, Q (.send data)) (status : Int) :
    (refuse status).Always fun a _ => Q a :=
  ⟨hsend _, fun _ => trivial⟩

theorem always_listUsers (hread : ∀ {size : Nat} (buffer : Buffer size), Q (.readLine buffer))
    (hcopy : Q .getElements) (hsize : Q .listGetSize) (hsend : ∀ data, Q (.send data))
    (hwrite : ∀ data, Q (.write data)) (hclose : Q .close) (locals : Locals) :
    (listUsers locals).Always fun a _ => Q a := by
  refine ⟨hread _, fun x => ?_⟩
  cases x with
  | none => exact always_refuse hsend _
  | some _ =>
    refine ⟨hcopy, fun users => ?_⟩
    cases users with
    | none => exact ⟨hsend _, fun _ => always_closeSocket hclose⟩
    | some users =>
      refine ⟨hsend _, fun y => ?_⟩
      cases y with
      | none => exact always_closeSocket hclose
      | some _ =>
        refine ⟨hsize, fun numberUsers => ⟨hsend _, fun z => ?_⟩⟩
        cases z with
        | none => exact always_closeSocket hclose
        | some _ =>
          exact Program.always_bind (always_sendFields hwrite _)
            fun _ => always_closeSocket hclose

variable (hopen : ∀ path, Q (.opendir path)) (hread : ∀ directory, Q (.readdir directory))
  (hclose : ∀ directory, Q (.closedir directory))

include hread hclose

theorem always_scan (directory : Option Nat) (name : Bytes) (names : List Bytes) :
    (scan directory name names).Always fun a _ => Q a := by
  induction names with
  | nil => exact ⟨hread _, fun _ => ⟨hclose _, fun _ => trivial⟩⟩
  | cons dName rest ih =>
    refine ⟨hread _, fun _ => ?_⟩
    by_cases hname : dName = name
    · rw [if_pos hname]
      exact ⟨hclose _, fun _ => trivial⟩
    · rw [if_neg hname]
      exact ih

include hopen

theorem always_searchDirectory (path name : Bytes) :
    (searchDirectory path name).Always fun a _ => Q a := by
  refine ⟨hopen _, fun x => ?_⟩
  cases x with
  | none => exact ⟨hclose _, fun _ => trivial⟩
  | some directory => exact always_scan hread hclose _ _ _

end Always

/-! ## Requests -/

/-- A handler: the status that it returns, or none when it has ended the thread. -/
abbrev Handler := Part (Option Int)

def returnStatus (status : Int) : Handler := .done (some status)

/-- Read a field, or return the status for a field that cannot be read. -/
def readField {size : Nat} (buffer : Buffer size) (failed : Int) (next : Line → Handler) :
    Handler :=
  .call (.readLine buffer) fun
    | none => returnStatus failed
    | some line => next line

/-- What the handler does with its fields. -/
def change (request : Request) : Handler := .call (.change request) returnStatus

section Handlers

variable (v : Variables)

def registerUser : Handler :=
  readField v.userName otherError2 fun userName => change (.register userName)

def unregisterUser : Handler :=
  readField v.userName otherError2 fun userName => change (.unregister userName)

def connectUser : Handler :=
  readField v.userName otherError3 fun userName =>
  readField v.userPort otherError3 fun userPort => change (.connect userName userPort)

def disconnectUser : Handler :=
  readField v.userName otherError3 fun userName => change (.disconnect userName)

def publishFile : Handler :=
  readField v.userName otherError4 fun userName =>
  readField v.fileName otherError4 fun fileName =>
  readField v.fileDescription otherError4 fun fileDescription =>
  change (.publish userName fileName fileDescription)

def deleteFile : Handler :=
  readField v.userName otherError4 fun userName =>
  readField v.fileName otherError4 fun fileName => change (.delete userName fileName)

/-- A handler that ends the thread. -/
def exits (part : Part Unit) : Handler := part.bind fun _ => .done none

def commandSelector (buffer : Bytes) : Handler :=
  if buffer = Command.register then registerUser v
  else if buffer = Command.unregister then unregisterUser v
  else if buffer = Command.connect then connectUser v
  else if buffer = Command.disconnect then disconnectUser v
  else if buffer = Command.publish then publishFile v
  else if buffer = Command.delete then deleteFile v
  else if buffer = Command.listUsersList then exits (listUsers v.toLocals)
  else if buffer = Command.listContentList then exits (listContent v)
  else returnStatus v.output

/-- What follows the handler. -/
def replyStatus : Option Int → Part Unit
  | none => .done ()
  | some output =>
    if output ≠ selfReply then .call (.send (htonl output)) fun _ => closeSocket
    else closeSocket

/-- `process_request`, with the selector of one of the two builds. -/
def processRequest.selecting (selector : Bytes → Handler) : Part Unit :=
  .call (.readLine v.message) fun
    | none => closeSocket
    | some message => (selector message.text).bind replyStatus

def processRequest : Part Unit := processRequest.selecting v (commandSelector v)

end Handlers

/-! ## Two users -/

/-- alice has published two files; she and bob are connected. -/
def aliceBobStore : Store :=
  let create (t : Tree) (path : Bytes) : Tree := (((posix []).openCreate t path).getD (t, [])).1
  let users := ((posix []).mkdir usersTree (userPath (cstring "alice"))).getD .empty
  let directory := userDirPath (cstring "alice")
  { tree := create (create users (directory ++ cstring "a")) (directory ++ cstring "b"),
    connected := [⟨cstring "alice", cstring "1", cstring "ip"⟩,
      ⟨cstring "bob", cstring "2", cstring "ip"⟩] }

def Results.empty : Results := ⟨0, .of [], .of []⟩

/-- A POSIX system, and calls of the RPC client that do nothing. -/
def posixEnv : Env where
  calls := posix []
  allocated := true
  address := none
  rpc := fun _ s => ⟨rpcSuccess, .empty, s⟩

def aliceBobWorld (request : Bytes) (outcomes : Nat → Outcome) : World where
  store := aliceBobStore
  input := received request
  outcomes := outcomes
  opened := 0
  results := .empty

def Variables.zeros : Variables := { Locals.zeros with directory := none }

end DistributedSystems.Lab.Traced
