import DistributedSystems.Lab.ServerC.Server
import DistributedSystems.Support.Threads

/-!
# The in-process server, one call at a time

All handlers as programs of the calls that one thread can be interrupted between: the functions of
the list, the scans of a directory, and the single system calls of `remove_directory`,
`publish_file` and `delete_file`. `list_users` reads the list twice, `list_content` goes through the
directory twice. The two mutexes of the server are never locked.

A thread that holds a file or a directory open keeps it when the entry is removed, so what the
threads share includes how often each entry has been removed (`Machine.removals`). A program run
alone does what the handler does in one piece (`run_program`).
-/

namespace DistributedSystems.Lab.Preemptive

open Fs Support

/-! ## What the threads share -/

/-- An open file or directory: its position, and how many removals there had been there. -/
structure Descriptor where
  pos : Pos
  generation : Nat
deriving DecidableEq, Repr

structure Machine where
  store : Store
  removals : Pos → Nat

namespace Machine

variable (m : Machine)

/-- A call has made this tree of the old one. -/
def withTree (t : Tree) : Machine where
  store := { m.store with tree := t }
  removals q :=
    if (m.store.tree.get q).isSome ∧ t.get q = none then m.removals q + 1 else m.removals q

def withConnected (list : List UserServerData) : Machine :=
  { m with store := { m.store with connected := list } }

/-- A call that changes the tree or fails. -/
def change : Option Tree → Int × Machine
  | none => (-1, m)
  | some t => (0, m.withTree t)

/-- The entry at a position, held open. -/
def opened (p : Pos) : Descriptor := ⟨p, m.removals p⟩

/-- The entry that was opened has not been removed. -/
def Alive (d : Descriptor) : Prop := m.removals d.pos = d.generation

instance (d : Descriptor) : Decidable (m.Alive d) :=
  inferInstanceAs (Decidable (_ = _))

/-- The file names that a pass over an open directory finds. -/
def filesIn (d : Descriptor) : List Bytes :=
  if m.Alive d then fileNames (listing m.store.tree d.pos) else []

@[simp] theorem tree_withTree (t : Tree) : (m.withTree t).store.tree = t := rfl

@[simp] theorem connected_withTree (t : Tree) :
    (m.withTree t).store.connected = m.store.connected := rfl

end Machine

/-- The calls between which another thread may run. -/
inductive Call
  | isusrRegistered (userName : Bytes)
  | findElementByname (userName : Bytes)
  | addElement (data : UserServerData)
  | deleteElement (userName : Bytes)
  | getElements
  | listGetSize
  | mkdir (path : Bytes)
  /-- `opendir` of `remove_directory`, with the names that the calls of `readdir` will yield. -/
  | opendir (path : Bytes)
  | malloc (path : Bytes)
  | stat (path : Bytes)
  | unlink (path : Bytes)
  | rmdir (path : Bytes)
  | fileExists (fileName directoryPath : Bytes)
  | openCreate (path : Bytes)
  | write (file : Descriptor) (data : Bytes)
  | remove (path : Bytes)
  /-- `opendir` of `list_content`. -/
  | openDirectory (path : Bytes)
  | countFiles (directory : Descriptor)
  | sendFiles (directory : Descriptor)
deriving DecidableEq

abbrev Call.Answer : Call → Type
  | .addElement _ => Unit
  | .deleteElement _ => Unit
  | .getElements => Option (List UserServerData)
  | .listGetSize => Nat
  | .opendir _ => Option (List Bytes)
  | .malloc _ => Bool
  | .stat _ => Option Entry
  | .openCreate _ => Option Descriptor
  | .openDirectory _ => Option Descriptor
  | .countFiles _ => Nat
  | .sendFiles _ => List Bytes
  | _ => Int

/-- The conditions under which a call is made, which may be other ones each time. -/
structure Conditions where
  calls : SysCalls
  allocated : Bool

/-- One call, at once. -/
def perform (cwd : Pos) (env : Conditions) : (a : Call) → Machine → a.Answer × Machine
  | .isusrRegistered userName, m => (isusrRegistered env.calls m.store.tree userName, m)
  | .findElementByname userName, m => (findElementByname m.store.connected userName, m)
  | .addElement data, m => ((), m.withConnected (addElement data m.store.connected))
  | .deleteElement userName, m => ((), m.withConnected (deleteElement userName m.store.connected))
  | .getElements, m => (if env.allocated then some (getElements m.store.connected) else none, m)
  | .listGetSize, m => (listGetSize m.store.connected, m)
  | .mkdir path, m => m.change (env.calls.mkdir m.store.tree path)
  | .opendir path, m => (env.calls.opendir m.store.tree path, m)
  | .malloc path, m => (env.calls.malloc m.store.tree path, m)
  | .stat path, m => (env.calls.stat m.store.tree path, m)
  | .unlink path, m => m.change (env.calls.unlink m.store.tree path)
  | .rmdir path, m => m.change (env.calls.rmdir m.store.tree path)
  | .fileExists fileName path, m => (fileExists env.calls m.store.tree fileName path, m)
  | .openCreate path, m =>
    match env.calls.openCreate m.store.tree path with
    | none => (none, m)
    | some (t, p) => (some ((m.withTree t).opened p), m.withTree t)
  | .write file data, m =>
    match env.calls.write m.store.tree file.pos data with
    | none => (-1, m)
    -- a file that is gone from the tree takes the data with it
    | some t => (0, if m.Alive file then m.withTree t else m)
  | .remove path, m => m.change (env.calls.remove m.store.tree path)
  | .openDirectory path, m =>
    ((env.calls.opendir m.store.tree path).bind fun _ =>
      (resolve cwd m.store.tree path).map m.opened, m)
  | .countFiles directory, m => ((m.filesIn directory).length, m)
  | .sendFiles directory, m => (m.filesIn directory, m)

/-- A call that changes the tree leaves the list as it is. -/
theorem connected_change (m : Machine) (t : Option Tree) :
    (m.change t).2.store.connected = m.store.connected := by
  cases t <;> rfl

/-- The calls that do not touch the list. -/
theorem connected_perform {cwd : Pos} {env : Conditions} {a : Call}
    (hadd : ∀ d, a ≠ .addElement d) (hdelete : ∀ u, a ≠ .deleteElement u) (m : Machine) :
    (perform cwd env a m).2.store.connected = m.store.connected := by
  cases a with
  | addElement d => exact absurd rfl (hadd d)
  | deleteElement u => exact absurd rfl (hdelete u)
  | mkdir path => exact connected_change m _
  | unlink path => exact connected_change m _
  | rmdir path => exact connected_change m _
  | remove path => exact connected_change m _
  | openCreate path =>
    simp only [perform]
    split <;> rfl
  | write file data =>
    simp only [perform]
    split
    · rfl
    · split <;> rfl
  | _ => rfl

/-! ## The programs -/

/-- How a handler ends: with a status, or with a listing. LIST_USERS has taken a snapshot, announced
a number of records and sent the elements below it, where none is one outside the array. -/
inductive Outcome
  | status (output : Int)
  | users (snapshot : List UserServerData) (announced : Nat) (sent : List (Option UserServerData))
  | content (announced : Nat) (sent : List Bytes)
deriving DecidableEq, Repr

/-- The bytes of the reply, unless an element outside the array is read. -/
def Outcome.reply : Outcome → Option Bytes
  | .status output => some (htonl output)
  | .users _ announced sent =>
    (sent.mapM id).map fun users => htonl success ++ htonl announced ++ users.flatMap sendUser
  | .content announced sent =>
    some (htonl success ++ htonl announced ++ sent.flatMap sendField)

abbrev Handler := Program Call.Answer Outcome

def returnStatus (output : Int) : Handler := .done (.status output)

def registerUser.made (made : Int) : Handler :=
  if made = -1 then returnStatus otherError2 else returnStatus success

def registerUser.checked (userName : Bytes) (registered : Int) : Handler :=
  if registered = 0 then .call (.mkdir (userPath userName)) registerUser.made
  else if registered = 1 then returnStatus userRegistered
  else returnStatus otherError2

def registerUser (userName : Bytes) : Handler :=
  .call (.isusrRegistered userName) (registerUser.checked userName)

/-- A part of a handler that answers with an `int`. -/
abbrev Part := Program Call.Answer Int

def removeEntry (recurse : Bytes → Part) (buf : Bytes) : Part :=
  .call (.malloc buf) fun allocated =>
    if allocated then
      .call (.stat buf) fun
        | none => .done (-1)
        | some .dir => recurse buf
        | some (.file _) => .call (.unlink buf) .done
    else .done (-1)

def removeEntries (recurse : Bytes → Part) (path : Bytes) : List Bytes → Part
  | [] => .done 0
  | dName :: rest =>
    if dName = dot ∨ dName = dotDot then removeEntries recurse path rest
    else
      (removeEntry recurse (path ++ slash :: dName)).bind fun r =>
        if r = 0 then removeEntries recurse path rest else .done r

/-- `remove_directory`, with a bound on the depth of its recursion that no run need reach. -/
def removeDirectory : Nat → Bytes → Part
  | 0, _ => .done (-1)
  | depth + 1, path =>
    .call (.opendir path) fun
      | none => .done (-1)
      | some entries =>
        (removeEntries (removeDirectory depth) path entries).bind fun r =>
          if r = 0 then .call (.rmdir path) .done else .done r

def unregisterUser.removed (userName : Bytes) (removed : Int) : Handler :=
  if removed = -1 then returnStatus otherError2
  else .call (.deleteElement userName) fun _ => returnStatus success

def unregisterUser.checked (depth : Nat) (userName : Bytes) (registered : Int) : Handler :=
  if registered = 1 then
    (removeDirectory depth (userPath userName)).bind (unregisterUser.removed userName)
  else if registered = 0 then returnStatus userNotRegistered
  else returnStatus otherError2

def unregisterUser (depth : Nat) (userName : Bytes) : Handler :=
  .call (.isusrRegistered userName) (unregisterUser.checked depth userName)

def connectUser.searched (address : Option Bytes) (userName userPort : Bytes)
    (connected : Int) : Handler :=
  if connected ≠ 0 then returnStatus userConnected
  else
    match address with
    | none => returnStatus otherError3
    | some clientAddress =>
      .call (.addElement ⟨userName, userPort, clientAddress⟩) fun _ => returnStatus success

def connectUser.checked (address : Option Bytes) (userName userPort : Bytes) (registered : Int) :
    Handler :=
  if registered = 1 then
    .call (.findElementByname userName) (connectUser.searched address userName userPort)
  else if registered = 0 then returnStatus userNotRegistered
  else returnStatus otherError3

def connectUser (address : Option Bytes) (userName userPort : Bytes) : Handler :=
  .call (.isusrRegistered userName) (connectUser.checked address userName userPort)

def disconnectUser.searched (userName : Bytes) (connected : Int) : Handler :=
  if connected ≠ 0 then .call (.deleteElement userName) fun _ => returnStatus success
  else returnStatus userNotConnected

def disconnectUser.checked (userName : Bytes) (registered : Int) : Handler :=
  if registered = 1 then .call (.findElementByname userName) (disconnectUser.searched userName)
  else if registered = 0 then returnStatus userNotRegistered
  else returnStatus otherError3

def disconnectUser (userName : Bytes) : Handler :=
  .call (.isusrRegistered userName) (disconnectUser.checked userName)

def publishFile.written (written : Int) : Handler :=
  if written = -1 then returnStatus otherError4 else returnStatus success

def publishFile.opened (fileDescription : Line) : Option Descriptor → Handler
  | none => returnStatus otherError4
  | some file => .call (.write file (description fileDescription)) publishFile.written

def publishFile.searched (userName fileName fileDescription : Line) (file : Int) : Handler :=
  if file = 0 then
    .call (.openCreate (filePath userName fileName)) (publishFile.opened fileDescription)
  else if file = 1 then returnStatus filePublished
  else returnStatus otherError4

def publishFile.connected (userName fileName fileDescription : Line) (connected : Int) : Handler :=
  if connected ≠ 0 then
    .call (.fileExists fileName.text (userDirPath userName.text))
      (publishFile.searched userName fileName fileDescription)
  else returnStatus userNotConnected

def publishFile.checked (userName fileName fileDescription : Line) (registered : Int) : Handler :=
  if registered = 1 then
    .call (.findElementByname userName.text)
      (publishFile.connected userName fileName fileDescription)
  else returnStatus userNotRegistered

def publishFile (userName fileName fileDescription : Line) : Handler :=
  .call (.isusrRegistered userName.text) (publishFile.checked userName fileName fileDescription)

def deleteFile.removed (removed : Int) : Handler :=
  if removed = -1 then returnStatus otherError4 else returnStatus success

def deleteFile.searched (userName fileName : Line) (file : Int) : Handler :=
  if file = 1 then .call (.remove (filePath userName fileName)) deleteFile.removed
  else if file = 0 then returnStatus fileNotPublished
  else returnStatus otherError4

def deleteFile (userName fileName : Line) : Handler :=
  .call (.fileExists fileName.text (userDirPath userName.text))
    (deleteFile.searched userName fileName)

def listUsers.sized (users : List UserServerData) (numberUsers : Nat) : Handler :=
  .done (.users users numberUsers ((List.range numberUsers).map fun ii => users[ii]?))

def listUsers.taken : Option (List UserServerData) → Handler
  | none => returnStatus otherError3
  | some users => .call .listGetSize (listUsers.sized users)

def listUsers : Handler := .call .getElements listUsers.taken

def listContent.sent (numberFiles : Nat) (names : List Bytes) : Handler :=
  .done (.content numberFiles names)

def listContent.opened : Option Descriptor → Handler
  | none => returnStatus otherError4
  | some directory =>
    .call (.countFiles directory) fun numberFiles =>
      .call (.sendFiles directory) (listContent.sent numberFiles)

def listContent.checked (userName : Bytes) (registered : Int) : Handler :=
  if registered ≠ 0 then .call (.openDirectory (userDirPath userName)) listContent.opened
  else returnStatus noContentToList

def listContent (userName : Bytes) : Handler :=
  .call (.isusrRegistered userName) (listContent.checked userName)

/-- What a connection asks for, and the address that `getsockname` gives for it. -/
structure Connection where
  operation : Operation
  address : Option Bytes
deriving DecidableEq, Repr

def Connection.program (depth : Nat) (k : Connection) : Handler :=
  match k.operation with
  | .change (.register userName) => registerUser userName.text
  | .change (.unregister userName) => unregisterUser depth userName.text
  | .change (.connect userName userPort) => connectUser k.address userName.text userPort.text
  | .change (.disconnect userName) => disconnectUser userName.text
  | .change (.publish userName fileName fileDescription) =>
    publishFile userName fileName fileDescription
  | .change (.delete userName fileName) => deleteFile userName fileName
  | .listUsers _ => listUsers
  | .listContent _ userName => listContent userName.text

/-- The server with a thread for each connection. -/
def server (cwd : Pos) (depth : Nat) :
    System Machine Connection Conditions Call.Answer Outcome where
  start := Connection.program depth
  exec := perform cwd

abbrev ServerPool := Pool Machine Connection Call.Answer Outcome

abbrev ServerMove := Move Connection Conditions

/-- The server before the first connection. -/
def initialPool (m : Machine) : ServerPool := ⟨m, []⟩

/-- The server with one registered user. -/
def aliceMachine : Machine where
  store := (registerUser.act (posix []) (cstring "alice") (initP2pService (posix []) .empty)).2
  removals _ := 0

/-- A POSIX system on which allocations succeed. -/
def posixConditions : Conditions := ⟨posix [], true⟩

/-! ## Run alone -/

section Alone

variable {cwd : Pos} {env : Conditions}

/-- The part, run alone, has this result and leaves this tree. -/
def Part.Does (cwd : Pos) (env : Conditions) (part : Part) (m : Machine) (r : Int × Tree) : Prop :=
  (part.run (perform cwd env) m).1 = r.1 ∧
    (part.run (perform cwd env) m).2.store = { m.store with tree := r.2 }

/-- What is done in turn. -/
theorem Part.Does.bind {part : Part} {k : Int → Part} {m : Machine} {r r' : Int × Tree}
    (h : part.Does cwd env m r)
    (hk : ∀ m', m'.store = { m.store with tree := r.2 } → (k r.1).Does cwd env m' r') :
    Part.Does cwd env (part.bind k) m r' := by
  obtain ⟨hresult, hstore⟩ := h
  obtain ⟨hresult', hstore'⟩ := hk _ hstore
  unfold Part.Does
  rw [Program.run_bind, hresult]
  refine ⟨hresult', hstore'.trans ?_⟩
  rw [hstore]

theorem Part.does_done (r : Int) (m : Machine) :
    Part.Does cwd env (.done r) m (r, m.store.tree) := ⟨rfl, rfl⟩

/-- A call that only reads. -/
theorem Part.does_call {a : Call} {k : a.Answer → Part} {m : Machine} {r : Int × Tree}
    {x : a.Answer} (hx : perform cwd env a m = (x, m)) (h : (k x).Does cwd env m r) :
    Part.Does cwd env (.call a k) m r := by
  have hrun : (Program.call a k).run (perform cwd env) m = (k x).run (perform cwd env) m := by
    change (k (perform cwd env a m).1).run (perform cwd env) (perform cwd env a m).2 = _
    rw [hx]
  unfold Part.Does
  rw [hrun]
  exact h

/-- A call that changes the tree, at the end. -/
theorem Part.does_change {a : Call} {k : a.Answer → Part} {m : Machine} {t : Option Tree}
    (h : (Program.call a k).run (perform cwd env) m = m.change t) :
    Part.Does cwd env (.call a k) m (t.elim (-1, m.store.tree) fun t => (0, t)) := by
  cases t with
  | none => exact ⟨congrArg Prod.fst h, congrArg (fun r => r.2.store) h⟩
  | some t => exact ⟨congrArg Prod.fst h, congrArg (fun r => r.2.store) h⟩

section Removal

variable {recurse : Bytes → Part} {recurse' : Tree → Bytes → Int × Tree}
  (hrec : ∀ path m, (recurse path).Does cwd env m (recurse' m.store.tree path))

include hrec

/-- One turn of the loop, with no other thread at work. -/
theorem removeEntry_does (buf : Bytes) (m : Machine) : (removeEntry recurse buf).Does cwd env m
    (Lab.removeEntry env.calls recurse' m.store.tree buf) := by
  unfold removeEntry Lab.removeEntry
  refine Part.does_call rfl ?_
  split
  · cases hstat : env.calls.stat m.store.tree buf with
    | none => exact Part.does_call (Prod.ext hstat rfl) (Part.does_done _ m)
    | some e =>
      refine Part.does_call (Prod.ext hstat rfl) ?_
      cases e with
      | dir => exact hrec buf m
      | file old =>
        have hdone : Part.Does cwd env (.call (.unlink buf) .done) m
            ((env.calls.unlink m.store.tree buf).elim (-1, m.store.tree) fun t => (0, t)) :=
          Part.does_change rfl
        cases hunlink : env.calls.unlink m.store.tree buf with
        | none => rw [hunlink] at hdone; exact hdone
        | some t => rw [hunlink] at hdone; exact hdone
  · exact Part.does_done _ m

/-- The loop over the entries: each turn goes on with the tree that the one before it has left. -/
theorem removeEntries_does (path : Bytes) (entries : List Bytes) (m : Machine) :
    (removeEntries recurse path entries).Does cwd env m
      (Lab.removeEntries env.calls recurse' path entries m.store.tree) := by
  induction entries generalizing m with
  | nil => exact Part.does_done 0 m
  | cons dName rest ih =>
    unfold removeEntries Lab.removeEntries
    split
    · exact ih m
    · have hentry := removeEntry_does hrec (path ++ slash :: dName) m
      revert hentry
      generalize Lab.removeEntry env.calls recurse' m.store.tree (path ++ slash :: dName) = r
      intro hentry
      refine hentry.bind fun m' hm' => ?_
      have htree : m'.store.tree = r.2 := by rw [hm']
      dsimp only
      split
      · rw [← htree]
        exact ih m'
      · have hdone : Part.Does cwd env (.done r.1) m' (r.1, m'.store.tree) :=
          Part.does_done r.1 m'
        rw [htree] at hdone
        exact hdone

end Removal

/-- The recursion, by the depth that is left. Each level is the loop over the entries and a `rmdir`.
-/
theorem removeDirectory_does (depth : Nat) (path : Bytes) (m : Machine) :
    (removeDirectory depth path).Does cwd env m
      (removeDirectoryAux env.calls depth m.store.tree path) := by
  induction depth generalizing path m with
  | zero => exact Part.does_done (-1) m
  | succ depth ih =>
    unfold removeDirectory removeDirectoryAux
    cases hopen : env.calls.opendir m.store.tree path with
    | none => exact Part.does_call (Prod.ext hopen rfl) (Part.does_done _ m)
    | some entries =>
      refine Part.does_call (Prod.ext hopen rfl) ?_
      have hentries := removeEntries_does ih path entries m
      dsimp only
      revert hentries
      generalize Lab.removeEntries env.calls (removeDirectoryAux env.calls depth) path entries
        m.store.tree = r
      intro hentries
      refine hentries.bind fun m' hm' => ?_
      have htree : m'.store.tree = r.2 := by rw [hm']
      split
      · have hdone : Part.Does cwd env (.call (.rmdir path) .done) m'
            ((env.calls.rmdir m'.store.tree path).elim (-1, m'.store.tree) fun t => (0, t)) :=
          Part.does_change rfl
        rw [← htree]
        cases hrmdir : env.calls.rmdir m'.store.tree path with
        | none => rw [hrmdir] at hdone; exact hdone
        | some t => rw [hrmdir] at hdone; exact hdone
      · have hdone : Part.Does cwd env (.done r.1) m' (r.1, m'.store.tree) :=
          Part.does_done r.1 m'
        rw [htree] at hdone
        exact hdone

/-- The handler, run alone, sends these bytes and leaves this store. -/
def Handler.Does (cwd : Pos) (env : Conditions) (handler : Handler) (m : Machine)
    (r : Bytes × Store) : Prop :=
  (handler.run (perform cwd env) m).1.reply = some r.1 ∧
    (handler.run (perform cwd env) m).2.store = r.2

/-- The reply to a handler that returns a status. -/
def statusReply (r : Int × Store) : Bytes × Store := (htonl r.1, r.2)

theorem Handler.does_return (output : Int) (m : Machine) :
    (returnStatus output).Does cwd env m (statusReply (output, m.store)) := ⟨rfl, rfl⟩

/-- A call, by what it answers and leaves. -/
theorem Handler.does_call {a : Call} {k : a.Answer → Handler} {m m' : Machine} {r : Bytes × Store}
    {x : a.Answer} (hx : perform cwd env a m = (x, m')) (h : (k x).Does cwd env m' r) :
    Handler.Does cwd env (.call a k) m r := by
  have hrun : (Program.call a k).run (perform cwd env) m = (k x).run (perform cwd env) m' := by
    change (k (perform cwd env a m).1).run (perform cwd env) (perform cwd env a m).2 = _
    rw [hx]
  unfold Handler.Does
  rw [hrun]
  exact h

/-- A call that changes the tree, at the end. -/
theorem Handler.does_change {rest : Handler} {m : Machine} {t : Option Tree} {failure : Int}
    (h : rest.run (perform cwd env) m =
      (if (m.change t).1 = -1 then returnStatus failure else returnStatus success : Handler).run
        (perform cwd env) (m.change t).2) :
    rest.Does cwd env m
      (statusReply (t.elim (failure, m.store) fun t => (success, { m.store with tree := t }))) := by
  unfold Handler.Does
  rw [h]
  cases t with
  | none => exact ⟨rfl, rfl⟩
  | some t => exact ⟨rfl, rfl⟩

variable (m : Machine)

/-- REGISTER asks for the entry, and makes the directory if there is none. -/
theorem registerUser_does (u : Bytes) :
    (registerUser u).Does cwd env m (statusReply (registerUser.act env.calls u m.store)) := by
  unfold registerUser
  refine Handler.does_call rfl ?_
  unfold registerUser.checked registerUser.act
  dsimp only
  split
  · have hchange : Handler.Does cwd env (.call (.mkdir (userPath u)) registerUser.made) m _ :=
      Handler.does_change rfl
    cases hmkdir : env.calls.mkdir m.store.tree (userPath u) with
    | none => rw [hmkdir] at hchange; exact hchange
    | some t => rw [hmkdir] at hchange; exact hchange
  · split
    · exact Handler.does_return _ _
    · exact Handler.does_return _ _

/-- UNREGISTER removes the directory first, at a depth that is enough for any tree, and then the
record. -/
theorem unregisterUser_does (u : Bytes) :
    (unregisterUser (m.store.tree.entries.length + 1) u).Does cwd env m
      (statusReply (unregisterUser.act env.calls u m.store)) := by
  unfold unregisterUser
  refine Handler.does_call rfl ?_
  unfold unregisterUser.checked unregisterUser.act
  dsimp only
  split
  · have hremoval : Part.Does cwd env
        (removeDirectory (m.store.tree.entries.length + 1) (userPath u)) m
        (Lab.removeDirectory env.calls m.store.tree (userPath u)) :=
      removeDirectory_does _ _ m
    obtain ⟨hresult, hstore⟩ := hremoval
    unfold Handler.Does
    rw [Program.run_bind, hresult]
    unfold unregisterUser.removed
    split
    · exact ⟨rfl, hstore⟩
    · refine ⟨rfl, ?_⟩
      change Machine.store (Machine.withConnected _ _) = _
      unfold Machine.withConnected
      rw [hstore]
      rfl
  · split
    · exact Handler.does_return _ _
    · exact Handler.does_return _ _

/-- CONNECT looks at the directory, then at the list, and appends. -/
theorem connectUser_does (address : Option Bytes) (u port : Bytes) :
    (connectUser address u port).Does cwd env m
      (statusReply (connectUser.act env.calls address u port m.store)) := by
  unfold connectUser
  refine Handler.does_call rfl ?_
  unfold connectUser.checked connectUser.act
  dsimp only
  split
  · refine Handler.does_call rfl ?_
    unfold connectUser.searched
    split
    · exact Handler.does_return _ _
    · cases address with
      | none => exact Handler.does_return _ _
      | some clientAddress => exact Handler.does_call rfl (Handler.does_return _ _)
  · split
    · exact Handler.does_return _ _
    · exact Handler.does_return _ _

/-- DISCONNECT looks at the directory, then at the list, and removes the record. -/
theorem disconnectUser_does (u : Bytes) :
    (disconnectUser u).Does cwd env m (statusReply (disconnectUser.act env.calls u m.store)) := by
  unfold disconnectUser
  refine Handler.does_call rfl ?_
  unfold disconnectUser.checked disconnectUser.act
  dsimp only
  split
  · refine Handler.does_call rfl ?_
    unfold disconnectUser.searched
    split
    · exact Handler.does_call rfl (Handler.does_return _ _)
    · exact Handler.does_return _ _
  · split
    · exact Handler.does_return _ _
    · exact Handler.does_return _ _

/-- A file that has just been opened is still there. -/
theorem publishFile.opened_does (p : Pos) (d : Line) :
    (publishFile.opened d (some (m.opened p))).Does cwd env m
      (statusReply (match env.calls.write m.store.tree p (description d) with
        | none => (otherError4, m.store)
        | some t => (success, { m.store with tree := t }))) := by
  have halive : m.Alive (m.opened p) := rfl
  have hcall : perform cwd env (.write (m.opened p) (description d)) m =
      match env.calls.write m.store.tree p (description d) with
      | none => (-1, m)
      | some t => (0, if m.Alive (m.opened p) then m.withTree t else m) := rfl
  unfold publishFile.opened
  cases hwrite : env.calls.write m.store.tree p (description d) with
  | none =>
    rw [hwrite] at hcall
    exact Handler.does_call hcall (Handler.does_return _ _)
  | some t =>
    rw [hwrite] at hcall
    simp only [if_pos halive] at hcall
    exact Handler.does_call hcall (Handler.does_return _ _)

/-- PUBLISH makes its four checks, then creates the file and writes to it. -/
theorem publishFile_does (u f d : Line) :
    (publishFile u f d).Does cwd env m (statusReply (publishFile.act env.calls u f d m.store)) := by
  unfold publishFile
  refine Handler.does_call rfl ?_
  unfold publishFile.checked publishFile.act
  dsimp only
  split
  · refine Handler.does_call rfl ?_
    unfold publishFile.connected
    split
    · refine Handler.does_call rfl ?_
      unfold publishFile.searched
      split
      · cases hopen : env.calls.openCreate m.store.tree (filePath u f) with
        | none =>
          have hcall : perform cwd env (.openCreate (filePath u f)) m = (none, m) := by
            simp only [perform, hopen]
          rw [← filePath, hopen]
          exact Handler.does_call hcall (Handler.does_return _ _)
        | some r =>
          obtain ⟨t, fd⟩ := r
          have hcall : perform cwd env (.openCreate (filePath u f)) m =
              (some ((m.withTree t).opened fd), m.withTree t) := by
            simp only [perform, hopen]
          rw [← filePath, hopen]
          refine Handler.does_call hcall ?_
          exact publishFile.opened_does (m.withTree t) fd d
      · split
        · exact Handler.does_return _ _
        · exact Handler.does_return _ _
    · exact Handler.does_return _ _
  · exact Handler.does_return _ _

/-- DELETE looks for the file and removes it. -/
theorem deleteFile_does (u f : Line) :
    (deleteFile u f).Does cwd env m (statusReply (deleteFile.act env.calls u f m.store)) := by
  unfold deleteFile
  refine Handler.does_call rfl ?_
  unfold deleteFile.searched deleteFile.act
  dsimp only
  split
  · rw [← filePath]
    have hchange : Handler.Does cwd env (.call (.remove (filePath u f)) deleteFile.removed) m _ :=
      Handler.does_change rfl
    cases hremove : env.calls.remove m.store.tree (filePath u f) with
    | none => rw [hremove] at hchange; exact hchange
    | some t => rw [hremove] at hchange; exact hchange
  · split
    · exact Handler.does_return _ _
    · exact Handler.does_return _ _

/-- The elements below the length of an array are its elements. -/
theorem range_map_getElem? {α : Type} (xs : List α) :
    (List.range xs.length).map (fun ii => xs[ii]?) = xs.map some := by
  apply List.ext_getElem?
  intro ii
  by_cases hii : ii < xs.length
  · simp [hii]
  · simp [hii]

theorem mapM_some {α : Type} (xs : List α) : (xs.map some).mapM id = some xs := by
  induction xs with
  | nil => rfl
  | cons x xs ih =>
    rw [List.map_cons, List.mapM_cons, ih]
    rfl

/-- A snapshot that is as long as the list has said is sent whole. -/
theorem reply_sized (users : List UserServerData) :
    (Outcome.users users users.length
        ((List.range users.length).map fun ii => users[ii]?)).reply =
      some (htonl success ++ htonl users.length ++ users.flatMap sendUser) := by
  unfold Outcome.reply
  dsimp only
  rw [range_map_getElem?, mapM_some]
  rfl

/-- Alone, LIST_USERS finds the list at the length that its snapshot has. -/
theorem listUsers_does :
    listUsers.Does cwd env m (listUsers.act env.allocated m.store, m.store) := by
  unfold listUsers listUsers.act
  refine Handler.does_call rfl ?_
  cases env.allocated with
  | false => exact ⟨rfl, rfl⟩
  | true =>
    refine Handler.does_call rfl ⟨(reply_sized m.store.connected).trans ?_, rfl⟩
    unfold listGetSize getElements
    rw [if_pos rfl, List.take_length]

/-- Alone, LIST_CONTENT sends the names that it has counted. -/
theorem listContent_does (hc : env.calls ≤ posix cwd) (u : Bytes) :
    (listContent u).Does cwd env m (listContent.act env.calls u m.store, m.store) := by
  unfold listContent
  refine Handler.does_call rfl ?_
  unfold listContent.checked listContent.act
  split
  · cases hopen : env.calls.opendir m.store.tree (userDirPath u) with
    | none =>
      have hcall : perform cwd env (.openDirectory (userDirPath u)) m = (none, m) := by
        simp only [perform, hopen, Option.bind_none]
      exact Handler.does_call hcall ⟨rfl, rfl⟩
    | some entries =>
      obtain ⟨p, hp, -, rfl⟩ := posix.opendir_eq_some_iff.1 (SysCalls.opendir_of_le hc hopen)
      have hcall : perform cwd env (.openDirectory (userDirPath u)) m = (some (m.opened p), m) := by
        simp only [perform, hopen, Option.bind_some, hp, Option.map_some]
      refine Handler.does_call hcall (Handler.does_call rfl (Handler.does_call rfl ⟨?_, rfl⟩))
      have hfiles : m.filesIn (m.opened p) = fileNames (listing m.store.tree p) := if_pos rfl
      unfold listContent.sent Program.run Outcome.reply
      rw [hfiles]
  · exact ⟨rfl, rfl⟩

/-- **A program run alone does what the handler does in one piece**: the same reply, and the same
store afterwards. -/
theorem run_program (hc : env.calls ≤ posix cwd) (k : Connection) :
    (k.program (m.store.tree.entries.length + 1)).Does cwd env m
      (k.operation.run env.calls env.allocated k.address m.store) := by
  obtain ⟨operation, address⟩ := k
  cases operation with
  | change r =>
    cases r with
    | register u => exact registerUser_does m u.text
    | unregister u => exact unregisterUser_does m u.text
    | connect u port => exact connectUser_does m address u.text port.text
    | disconnect u => exact disconnectUser_does m u.text
    | publish u f d => exact publishFile_does m u f d
    | delete u f => exact deleteFile_does m u f
  | listUsers _ => exact listUsers_does m
  | listContent _ u => exact listContent_does m hc u.text

end Alone

end DistributedSystems.Lab.Preemptive
