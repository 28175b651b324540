import DistributedSystems.Lab.ServerC.Server
import DistributedSystems.Support.Threads

/-!
# The handlers of users, call by call

Every connection has a thread of its own and no mutex is taken, so that other threads come between
any two calls of a handler on the tree or on the list. Here the four handlers that change users are
programs of such calls; run alone they do what they do in one piece (`run_program`).
-/

namespace DistributedSystems.Lab

open Fs Support

/-- The calls of the handlers on what the threads share. -/
inductive Action
  | isusrRegistered (userName : Bytes)
  | findElementByname (userName : Bytes)
  | addElement (data : UserServerData)
  | deleteElement (userName : Bytes)
  | mkdir (path : Bytes)
  | removeDirectory (path : Bytes)
deriving DecidableEq, Repr

abbrev Action.Answer : Action → Type
  | .addElement _ => Unit
  | .deleteElement _ => Unit
  | _ => Int

/-- One call, at once. -/
def perform (c : SysCalls) : (a : Action) → Store → a.Answer × Store
  | .isusrRegistered userName, s => (isusrRegistered c s.tree userName, s)
  | .findElementByname userName, s => (findElementByname s.connected userName, s)
  | .addElement data, s => ((), { s with connected := addElement data s.connected })
  | .deleteElement userName, s => ((), { s with connected := deleteElement userName s.connected })
  | .mkdir path, s =>
    match c.mkdir s.tree path with
    | none => (-1, s)
    | some t => (0, { s with tree := t })
  | .removeDirectory path, s =>
    ((removeDirectory c s.tree path).1, { s with tree := (removeDirectory c s.tree path).2 })

/-- The calls that do not touch the list. -/
theorem connected_perform {a : Action} (hadd : ∀ d, a ≠ .addElement d)
    (hdelete : ∀ u, a ≠ .deleteElement u) (c : SysCalls) (s : Store) :
    (perform c a s).2.connected = s.connected := by
  cases a with
  | isusrRegistered u => rfl
  | findElementByname u => rfl
  | addElement d => exact absurd rfl (hadd d)
  | deleteElement u => exact absurd rfl (hdelete u)
  | mkdir path => simp only [perform]; split <;> rfl
  | removeDirectory path => rfl

/-- A request about users whose fields have been read. `address` is what `getsockname` gives for the
connection. -/
inductive UserRequest
  | register (userName : Bytes)
  | unregister (userName : Bytes)
  | connect (userName userPort : Bytes) (address : Option Bytes)
  | disconnect (userName : Bytes)
deriving DecidableEq, Repr

def UserRequest.user : UserRequest → Bytes
  | register userName => userName
  | unregister userName => userName
  | connect userName _ _ => userName
  | disconnect userName => userName

/-! ## The programs -/

abbrev Handler := Program Action.Answer Int

def registerUser.made (made : Int) : Handler :=
  if made = -1 then .done otherError2 else .done success

def registerUser.checked (userName : Bytes) (registered : Int) : Handler :=
  if registered = 0 then .call (.mkdir (userPath userName)) registerUser.made
  else if registered = 1 then .done userRegistered
  else .done otherError2

def registerUser.program (userName : Bytes) : Handler :=
  .call (.isusrRegistered userName) (registerUser.checked userName)

def unregisterUser.removed (userName : Bytes) (removed : Int) : Handler :=
  if removed = -1 then .done otherError2
  else .call (.deleteElement userName) fun _ => .done success

def unregisterUser.checked (userName : Bytes) (registered : Int) : Handler :=
  if registered = 1 then
    .call (.removeDirectory (userPath userName)) (unregisterUser.removed userName)
  else if registered = 0 then .done userNotRegistered
  else .done otherError2

def unregisterUser.program (userName : Bytes) : Handler :=
  .call (.isusrRegistered userName) (unregisterUser.checked userName)

def connectUser.searched (address : Option Bytes) (userName userPort : Bytes)
    (connected : Int) : Handler :=
  if connected ≠ 0 then .done userConnected
  else
    match address with
    | none => .done otherError3
    | some clientAddress =>
      .call (.addElement ⟨userName, userPort, clientAddress⟩) fun _ => .done success

def connectUser.checked (address : Option Bytes) (userName userPort : Bytes) (registered : Int) :
    Handler :=
  if registered = 1 then
    .call (.findElementByname userName) (connectUser.searched address userName userPort)
  else if registered = 0 then .done userNotRegistered
  else .done otherError3

def connectUser.program (address : Option Bytes) (userName userPort : Bytes) : Handler :=
  .call (.isusrRegistered userName) (connectUser.checked address userName userPort)

def disconnectUser.searched (userName : Bytes) (connected : Int) : Handler :=
  if connected ≠ 0 then .call (.deleteElement userName) fun _ => .done success
  else .done userNotConnected

def disconnectUser.checked (userName : Bytes) (registered : Int) : Handler :=
  if registered = 1 then .call (.findElementByname userName) (disconnectUser.searched userName)
  else if registered = 0 then .done userNotRegistered
  else .done otherError3

def disconnectUser.program (userName : Bytes) : Handler :=
  .call (.isusrRegistered userName) (disconnectUser.checked userName)

/-! ### All calls

What holds of each call of a handler, with what follows it, holds of the whole program. -/

section Always

variable {u : Bytes} {P : (a : Action) → (a.Answer → Handler) → Prop}

theorem registerUser.always_program (hcheck : P (.isusrRegistered u) (registerUser.checked u))
    (hmkdir : P (.mkdir (userPath u)) registerUser.made) :
    (registerUser.program u).Always P := by
  refine ⟨hcheck, fun (registered : Int) => ?_⟩
  unfold registerUser.checked
  split_ifs
  · refine ⟨hmkdir, fun (made : Int) => ?_⟩
    unfold registerUser.made
    split <;> trivial
  all_goals trivial

theorem unregisterUser.always_program
    (hcheck : P (.isusrRegistered u) (unregisterUser.checked u))
    (hremove : P (.removeDirectory (userPath u)) (unregisterUser.removed u))
    (hdelete : P (.deleteElement u) fun _ => .done success) :
    (unregisterUser.program u).Always P := by
  refine ⟨hcheck, fun (registered : Int) => ?_⟩
  unfold unregisterUser.checked
  split_ifs
  · refine ⟨hremove, fun (removed : Int) => ?_⟩
    unfold unregisterUser.removed
    split
    · trivial
    · exact ⟨hdelete, fun _ => trivial⟩
  all_goals trivial

theorem connectUser.always_program {address : Option Bytes} {port : Bytes}
    (hcheck : P (.isusrRegistered u) (connectUser.checked address u port))
    (hfind : P (.findElementByname u) (connectUser.searched address u port))
    (hadd : ∀ a, address = some a → P (.addElement ⟨u, port, a⟩) fun _ => .done success) :
    (connectUser.program address u port).Always P := by
  refine ⟨hcheck, fun (registered : Int) => ?_⟩
  unfold connectUser.checked
  split_ifs
  · refine ⟨hfind, fun (connected : Int) => ?_⟩
    unfold connectUser.searched
    split
    · trivial
    · cases address with
      | none => trivial
      | some a => exact ⟨hadd a rfl, fun _ => trivial⟩
  all_goals trivial

theorem disconnectUser.always_program
    (hcheck : P (.isusrRegistered u) (disconnectUser.checked u))
    (hfind : P (.findElementByname u) (disconnectUser.searched u))
    (hdelete : P (.deleteElement u) fun _ => .done success) :
    (disconnectUser.program u).Always P := by
  refine ⟨hcheck, fun (registered : Int) => ?_⟩
  unfold disconnectUser.checked
  split_ifs
  · refine ⟨hfind, fun (connected : Int) => ?_⟩
    unfold disconnectUser.searched
    split
    · exact ⟨hdelete, fun _ => trivial⟩
    · trivial
  all_goals trivial

end Always

/-! ### Run alone -/

section Run

variable (c : SysCalls) (u : Bytes) (s : Store)

theorem registerUser.run_program :
    (registerUser.program u).run (perform c) s = registerUser.act c u s := by
  change (registerUser.checked u (isusrRegistered c s.tree u)).run (perform c) s = _
  simp only [registerUser.checked, registerUser.act]
  split
  · cases hm : c.mkdir s.tree (userPath u) <;> simp [Program.run, perform, registerUser.made, hm]
  · split <;> rfl

theorem unregisterUser.run_program :
    (unregisterUser.program u).run (perform c) s = unregisterUser.act c u s := by
  change (unregisterUser.checked u (isusrRegistered c s.tree u)).run (perform c) s = _
  simp only [unregisterUser.checked, unregisterUser.act]
  split
  · change (unregisterUser.removed u (removeDirectory c s.tree (userPath u)).1).run (perform c)
      { s with tree := (removeDirectory c s.tree (userPath u)).2 } = _
    unfold unregisterUser.removed
    split <;> rfl
  · split <;> rfl

theorem connectUser.run_program (address : Option Bytes) (port : Bytes) :
    (connectUser.program address u port).run (perform c) s =
      connectUser.act c address u port s := by
  change (connectUser.checked address u port (isusrRegistered c s.tree u)).run (perform c) s = _
  simp only [connectUser.checked, connectUser.act]
  split
  · change (connectUser.searched address u port (findElementByname s.connected u)).run
      (perform c) s = _
    unfold connectUser.searched
    split
    · rfl
    · cases address <;> rfl
  · split <;> rfl

theorem disconnectUser.run_program :
    (disconnectUser.program u).run (perform c) s = disconnectUser.act c u s := by
  change (disconnectUser.checked u (isusrRegistered c s.tree u)).run (perform c) s = _
  simp only [disconnectUser.checked, disconnectUser.act]
  split
  · change (disconnectUser.searched u (findElementByname s.connected u)).run (perform c) s = _
    unfold disconnectUser.searched
    split <;> rfl
  · split <;> rfl

end Run

namespace UserRequest

def program : UserRequest → Handler
  | register userName => registerUser.program userName
  | unregister userName => unregisterUser.program userName
  | connect userName userPort address => connectUser.program address userName userPort
  | disconnect userName => disconnectUser.program userName

/-- The handler in one piece. -/
def act (c : SysCalls) : UserRequest → Store → Int × Store
  | register userName => registerUser.act c userName
  | unregister userName => unregisterUser.act c userName
  | connect userName userPort address => connectUser.act c address userName userPort
  | disconnect userName => disconnectUser.act c userName

/-- A program with no other thread between its calls is the handler in one piece. -/
theorem run_program (c : SysCalls) (r : UserRequest) (s : Store) :
    r.program.run (perform c) s = r.act c s := by
  cases r with
  | register u => exact registerUser.run_program c u s
  | unregister u => exact unregisterUser.run_program c u s
  | connect u port address => exact connectUser.run_program c u s address port
  | disconnect u => exact disconnectUser.run_program c u s

end UserRequest

/-- The server with a thread for each request. -/
def server : System Store UserRequest SysCalls Action.Answer Int where
  start := UserRequest.program
  exec := perform

abbrev ServerPool := Pool Store UserRequest Action.Answer Int

abbrev ServerMove := Move UserRequest SysCalls

/-- The server before the first request. -/
def initialPool (t : Tree) : ServerPool := ⟨⟨t, []⟩, []⟩

/-- The record that a move appends to the list. -/
def appended (p : ServerPool) (m : ServerMove) : Option UserServerData :=
  match System.called p m with
  | some (_, .addElement d) => some d
  | _ => none

theorem mem_appended_iff {p : ServerPool} {m : ServerMove} {d : UserServerData} :
    d ∈ appended p m ↔ ∃ r, System.called p m = some (r, .addElement d) := by
  rw [Option.mem_def, appended]
  split
  · rename_i r d' hc
    simp [hc]
  · rename_i hne
    apply iff_of_false (by simp)
    rintro ⟨r, hc⟩
    exact hne _ _ hc

/-- The tree with one registered user, `alice`. -/
def aliceTree : Tree :=
  (registerUser.act (posix []) (cstring "alice") (initP2pService (posix []) .empty)).2.tree

/-- CONNECT for `alice`, from some address. -/
def connectAlice : UserRequest := .connect (cstring "alice") (cstring "4001") (some (cstring "::1"))

/-- Handling a request in one piece is one of the schedules of its thread. -/
theorem exists_run_act (c : SysCalls) (r : UserRequest) (s : Store)
    (before after : List (Thread UserRequest Action.Answer Int)) :
    ∃ steps, Run server.Step ⟨s, before ++ ⟨r, r.program⟩ :: after⟩ steps
      ⟨(r.act c s).2, before ++ ⟨r, .done (r.act c s).1⟩ :: after⟩ := by
  have hrun := server.exists_run_alone c r before after r.program s
  rwa [show server.exec c = perform c from rfl, UserRequest.run_program] at hrun

end DistributedSystems.Lab
