import DistributedSystems.Lab.ServerRpc.StorageServer
import DistributedSystems.Support.Runs

/-!
# The storage daemon (`serverrpc/storage_svc.c`)

`svc_run` takes the calls one at a time and `storage_1` hands each to its procedure, so that the
daemon is the relation `DaemonStep` from a store without connected users.
-/

namespace DistributedSystems.Lab

open Fs Support

/-- The procedures of `storage.x` with their arguments. -/
inductive Procedure
  | registerUserRpc (arg1 : Bytes)
  | unregisterUserRpc (arg1 : Bytes)
  | connectUserRpc (arg1 : ConnectArguments)
  | disconnectUserRpc (arg1 : Bytes)
  | publishFileRpc (arg1 : PublishArguments)
  | deleteFileRpc (arg1 : DeleteArguments)
  | listUsers (arg1 : Bytes)
  | listContent (arg1 arg2 : Bytes)
  | isUserRegistered (arg1 : Bytes)
  | isUserConnected (arg1 : Bytes)
deriving DecidableEq, Repr

/-- The result that goes back. -/
inductive Result
  | status (result : Int)
  | users (result : List UserServer)
  | titles (result : List Title)
  /-- The procedure has stored nothing in its result. -/
  | unset
deriving DecidableEq, Repr

/-- One call, with the conditions that it meets: the system calls, and whether the array of
`get_elements` can be allocated. -/
structure Call where
  calls : SysCalls
  allocated : Bool
  procedure : Procedure

/-- What the daemon does with a call. -/
def storage1 (a : Call) (s : Store) : Result × Store :=
  let answer (r : Int × Store) : Result × Store := (.status r.1, r.2)
  match a.procedure with
  | .registerUserRpc arg1 => answer (registerUserRpc1Svc a.calls arg1 s)
  | .unregisterUserRpc arg1 => answer (unregisterUserRpc1Svc a.calls arg1 s)
  | .connectUserRpc arg1 => answer (connectUserRpc1Svc a.calls arg1 s)
  | .disconnectUserRpc arg1 => answer (disconnectUserRpc1Svc a.calls arg1 s)
  | .publishFileRpc arg1 => answer (publishFileRpc1Svc a.calls arg1 s)
  | .deleteFileRpc arg1 => answer (deleteFileRpc1Svc a.calls arg1 s)
  | .listUsers _ => (.users (listUsers1Svc a.allocated s), s)
  | .listContent _ arg2 => (.titles (listContent1Svc a.calls arg2 s), s)
  | .isUserRegistered _ => (.unset, s)
  | .isUserConnected _ => (.unset, s)

/-- `init_server`, on the tree that it is started on. -/
def initServer (t : Tree) : Store := ⟨t, []⟩

def DaemonStep (s : Store) (a : Call) (s' : Store) : Prop := (storage1 a s).2 = s'

/-- A call that meets a POSIX system, in which anything may still fail. -/
def PosixStep (cwd : Pos) (s : Store) (a : Call) (s' : Store) : Prop :=
  a.calls ≤ posix cwd ∧ DaemonStep s a s'

/-- A tree with nothing but an empty `./Users`. -/
def usersTree : Tree := ((posix []).mkdir .empty usersDirectory).getD .empty

end DistributedSystems.Lab
