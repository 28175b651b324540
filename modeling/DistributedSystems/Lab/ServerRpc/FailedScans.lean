import DistributedSystems.Lab.ServerRpc.Daemon
import DistributedSystems.Lab.ServerRpc.Listings

/-!
# When the directory of users cannot be scanned

`isusr_registered` answers 1, 0, or -1 when `./Users` does not open. Four handlers of the in-process
server tell the three apart; the other consumers take -1 for one of the two answers.
`failedScan_iff` says for every operation that looks a user up when it reports the failure as its
case for anything else and leaves the store alone.
-/

namespace DistributedSystems.Lab

open Fs

/-! ## The in-process server -/

namespace Operation

/-- The user that the operation looks up. DELETE and LIST_USERS look nobody up. -/
def lookedUp : Operation → Option Bytes
  | .change (.register userName) => some userName.text
  | .change (.unregister userName) => some userName.text
  | .change (.connect userName _) => some userName.text
  | .change (.disconnect userName) => some userName.text
  | .change (.publish userName _ _) => some userName.text
  | .change (.delete _ _) => none
  | .listUsers _ => none
  | .listContent _ userName => some userName.text

/-- The status for any other case. -/
def otherCase : Operation → Int
  | .change (.register _) => otherError2
  | .change (.unregister _) => otherError2
  | .change (.connect _ _) => otherError3
  | .change (.disconnect _) => otherError3
  | .change (.publish _ _ _) => otherError4
  | .change (.delete _ _) => otherError4
  | .listUsers _ => otherError3
  | .listContent _ _ => otherError4

/-- PUBLISH has no case for -1, and LIST_CONTENT goes on to the directory of the user. -/
def ReportsFailedScan (c : SysCalls) (s : Store) : Operation → Prop
  | .change (.publish _ _ _) => False
  | .listContent _ userName => c.opendir s.tree (userDirPath userName.text) = none
  | _ => True

end Operation

variable {c : SysCalls} {allocated : Bool} {s : Store} {u : Bytes}

theorem run_failedScan_iff {address : Option Bytes} {op : Operation} (hop : op.lookedUp = some u)
    (h : isusrRegistered c s.tree u = -1) :
    op.run c allocated address s = (htonl op.otherCase, s) ↔ op.ReportsFailedScan c s := by
  cases op with
  | change r =>
    cases r with
    | register userName =>
      obtain rfl := Option.some.inj hop
      exact iff_of_true (by simp [Operation.run, serve, registerUser.act, h, Operation.otherCase])
        trivial
    | unregister userName =>
      obtain rfl := Option.some.inj hop
      exact iff_of_true
        (by simp [Operation.run, serve, unregisterUser.act, h, Operation.otherCase]) trivial
    | connect userName userPort =>
      obtain rfl := Option.some.inj hop
      exact iff_of_true (by simp [Operation.run, serve, connectUser.act, h, Operation.otherCase])
        trivial
    | disconnect userName =>
      obtain rfl := Option.some.inj hop
      exact iff_of_true
        (by simp [Operation.run, serve, disconnectUser.act, h, Operation.otherCase]) trivial
    | publish userName fileName fileDescription =>
      obtain rfl := Option.some.inj hop
      have hstatus : htonl userNotRegistered ≠ htonl otherError4 := by decide
      exact iff_of_false
        (by simp [Operation.run, serve, publishFile.act, h, Operation.otherCase, hstatus]) id
    | delete userName fileName => cases hop
  | listUsers userName => cases hop
  | listContent useropName userName =>
    obtain rfl := Option.some.inj hop
    have hregistered : isusrRegistered c s.tree userName.text ≠ 0 := by
      rw [h]
      decide
    simp only [Operation.run, Operation.otherCase, Operation.ReportsFailedScan, Prod.mk.injEq,
      and_true]
    cases hopen : c.opendir s.tree (userDirPath userName.text) with
    | none => simp [listContent.act, hregistered, hopen]
    | some entries =>
      rw [listContent_act_of_opendir hregistered hopen]
      exact iff_of_false (htonl_ne_listing (Or.inr rfl) _).symm (by simp)

/-! ## The daemon -/

namespace Procedure

/-- The user that the procedure looks up. -/
def lookedUp : Procedure → Option Bytes
  | registerUserRpc arg1 => some arg1
  | unregisterUserRpc arg1 => some arg1
  | connectUserRpc arg1 => some arg1.name
  | disconnectUserRpc arg1 => some arg1
  | publishFileRpc arg1 => some arg1.name
  | listContent _ arg2 => some arg2
  | _ => none

/-- The result for any other case. A listing says it with a title. -/
def otherCase : Procedure → Result
  | registerUserRpc _ => .status 2
  | unregisterUserRpc _ => .status 2
  | connectUserRpc _ => .status 3
  | disconnectUserRpc _ => .status 3
  | publishFileRpc _ => .status 4
  | deleteFileRpc _ => .status 4
  | listUsers _ => .users [⟨cstring "-1", cstring "-1", cstring "-1"⟩]
  | listContent _ _ => .titles [⟨cstring "-1"⟩]
  | isUserRegistered _ => .unset
  | isUserConnected _ => .unset

/-- All take -1 for a user who is registered. The right result can only come from what they try
next. -/
def ReportsFailedScan (c : SysCalls) (s : Store) : Procedure → Prop
  | unregisterUserRpc arg1 => removeDirectory c s.tree (userPath arg1) = (-1, s.tree)
  | publishFileRpc arg1 =>
    arg1.name ∈ userNames s.connected ∧
      fileExists c s.tree arg1.fileName (userDirPath arg1.name) = 0 ∧
      ∀ t file, c.openCreate s.tree
          (strncat (userDirPath arg1.name) arg1.fileName arg1.fileName.length) = some (t, file) →
        t = s.tree ∧ c.write t file arg1.fileDescription = none
  | listContent _ arg2 =>
    ∀ entries, c.opendir s.tree (userDirPath arg2) = some entries →
      fileNames entries = [cstring "-1"]
  | _ => False

end Procedure

theorem unregister_failedScan_iff (h : isusrRegistered c s.tree u = -1) :
    unregisterUserRpc1Svc c u s = (2, s) ↔
      removeDirectory c s.tree (userPath u) = (-1, s.tree) := by
  rcases unregisterUserRpc1Svc_cases c s u with ⟨-, hr, heq⟩ | ⟨-, hr, heq⟩ | ⟨h0, -⟩
  · rw [heq, Prod.ext_iff]
    simp [hr, Prod.ext_iff]
  · rw [heq, Prod.ext_iff, Prod.ext_iff, Store.with_tree_eq_iff]
    simp [hr]
  · rw [h] at h0
    cases h0

theorem publish_failedScan_iff {a : PublishArguments} (h : isusrRegistered c s.tree a.name = -1) :
    publishFileRpc1Svc c a s = (4, s) ↔
      (Procedure.publishFileRpc a).ReportsFailedScan c s := by
  have hregistered : isusrRegistered c s.tree a.name ≠ 0 := by
    rw [h]
    decide
  unfold Procedure.ReportsFailedScan publishFileRpc1Svc
  rw [if_neg hregistered]
  simp only [findElementByname_eq_zero_iff]
  by_cases hconnected : a.name ∈ userNames s.connected
  · rw [if_neg (not_not.2 hconnected)]
    by_cases hfile : fileExists c s.tree a.fileName (userDirPath a.name) = 0
    · rw [if_neg (not_not.2 hfile)]
      cases hopen : c.openCreate s.tree
          (strncat (userDirPath a.name) a.fileName a.fileName.length) with
      | none => simp [hconnected, hfile]
      | some r =>
        obtain ⟨t, file⟩ := r
        cases hwrite : c.write t file a.fileDescription with
        | none => simp [hconnected, hfile, hwrite, Store.with_tree_eq_iff]
        | some t' => simp [hconnected, hfile, hwrite]
    · rw [if_pos hfile]
      simp [hfile]
  · rw [if_pos hconnected]
    simp [hconnected]

theorem content_failedScan_iff (h : isusrRegistered c s.tree u = -1) :
    listContent1Svc c u s = [⟨cstring "-1"⟩] ↔
      ∀ entries, c.opendir s.tree (userDirPath u) = some entries →
        fileNames entries = [cstring "-1"] := by
  have hregistered : isusrRegistered c s.tree u ≠ 0 := by
    rw [h]
    decide
  unfold listContent1Svc
  rw [if_neg hregistered]
  cases hopen : c.opendir s.tree (userDirPath u) with
  | none => simp
  | some entries =>
    dsimp only
    rw [List.map_eq_singleton_iff]
    simp

/-- CONNECT and DISCONNECT of the daemon have no case for anything else. -/
theorem connectUserRpc1Svc_ne_three (c : SysCalls) (a : ConnectArguments) (s : Store) :
    connectUserRpc1Svc c a s ≠ (3, s) := by
  unfold connectUserRpc1Svc
  split
  · simp
  · split <;> simp

theorem disconnectUserRpc1Svc_ne_three (c : SysCalls) (u : Bytes) (s : Store) :
    disconnectUserRpc1Svc c u s ≠ (3, s) := by
  unfold disconnectUserRpc1Svc
  split
  · simp
  · split <;> simp

theorem storage1_failedScan_iff {p : Procedure} (hp : p.lookedUp = some u)
    (h : isusrRegistered c s.tree u = -1) :
    storage1 ⟨c, allocated, p⟩ s = (p.otherCase, s) ↔ p.ReportsFailedScan c s := by
  have hstatus : ∀ {r : Int × Store} {k : Int},
      ((.status r.1, r.2) : Result × Store) = (.status k, s) ↔ r = (k, s) := by
    intro r k
    simp [Prod.ext_iff]
  cases p with
  | registerUserRpc arg1 =>
    obtain rfl := Option.some.inj hp
    refine iff_of_false ?_ id
    simp [storage1, registerUserRpc1Svc, h, Procedure.otherCase]
  | unregisterUserRpc arg1 =>
    obtain rfl := Option.some.inj hp
    exact hstatus.trans (unregister_failedScan_iff h)
  | connectUserRpc arg1 =>
    obtain rfl := Option.some.inj hp
    exact iff_of_false (fun heq => connectUserRpc1Svc_ne_three c arg1 s (hstatus.1 heq)) id
  | disconnectUserRpc arg1 =>
    obtain rfl := Option.some.inj hp
    exact iff_of_false (fun heq => disconnectUserRpc1Svc_ne_three c arg1 s (hstatus.1 heq)) id
  | publishFileRpc arg1 =>
    obtain rfl := Option.some.inj hp
    exact hstatus.trans (publish_failedScan_iff h)
  | listContent arg1 arg2 =>
    obtain rfl := Option.some.inj hp
    rw [Procedure.ReportsFailedScan, ← content_failedScan_iff h]
    simp [storage1, Procedure.otherCase]
  | _ => cases hp

/-! ## Both servers -/

/-- **When a failed scan is reported as one**: for every operation that a connection of the
in-process server names, and for every call of the daemon. -/
theorem failedScan_iff (c : SysCalls) (allocated : Bool) (s : Store) :
    (∀ locals address request op u, operationOf locals (.of request) = some op →
      op.lookedUp = some u → isusrRegistered c s.tree u = -1 →
        (processRequest c allocated locals ⟨received request, address⟩ s =
            (htonl op.otherCase, s) ↔ op.ReportsFailedScan c s)) ∧
      ∀ p u, Procedure.lookedUp p = some u → isusrRegistered c s.tree u = -1 →
        (storage1 ⟨c, allocated, p⟩ s = (p.otherCase, s) ↔ p.ReportsFailedScan c s) := by
  refine ⟨fun locals address request op u hop hu h => ?_, fun p u hp h =>
    storage1_failedScan_iff hp h⟩
  have hprocess := processRequest_arrived c allocated locals address s (.of request)
  rw [Arrived.bytes_of, hop] at hprocess
  rw [hprocess]
  exact run_failedScan_iff hu h

/-- A system on which `./Users` cannot be read. -/
def unreadableUsers : SysCalls :=
  { posix [] with
    opendir := fun t path => if path = usersDirectory then none else (posix []).opendir t path }

def aliceUsers : Store :=
  ⟨((posix []).mkdir usersTree (userPath (cstring "alice"))).getD .empty, []⟩

theorem register_reports_failedScan :
    processRequest unreadableUsers true .zeros ⟨received (cstring "REGISTER\x00alice\x00"), none⟩
        aliceUsers = (htonl 2, aliceUsers) ∧
      storage1 ⟨unreadableUsers, true, .listContent [] (cstring "bob")⟩ aliceUsers =
        (.titles [⟨cstring "-1"⟩], aliceUsers) := by
  have h := failedScan_iff unreadableUsers true aliceUsers
  refine ⟨(h.1 .zeros none _ (.change (.register (.of (cstring "alice")))) (cstring "alice")
    (by decide) rfl (by decide)).2 trivial, ?_⟩
  have hnone : unreadableUsers.opendir aliceUsers.tree (userDirPath (cstring "bob")) = none := by
    decide
  refine (h.2 (.listContent [] (cstring "bob")) (cstring "bob") rfl (by decide)).2 ?_
  intro entries hopen
  rw [hnone] at hopen
  cases hopen

/-- The in-process PUBLISH answers that the user is not registered, the daemon's REGISTER that the
name is taken, and its UNREGISTER removes the directory. -/
theorem unreadable_users_answered :
    isusrRegistered unreadableUsers aliceUsers.tree (cstring "alice") = -1 ∧
      processRequest unreadableUsers true .zeros
          ⟨received (cstring "PUBLISH\x00alice\x00notes\x00text\x00"), none⟩ aliceUsers =
        (htonl 1, aliceUsers) ∧
      htonl 1 ≠ htonl otherError4 ∧
      storage1 ⟨unreadableUsers, true, .registerUserRpc (cstring "alice")⟩ aliceUsers =
        (.status 1, aliceUsers) ∧
      storage1 ⟨unreadableUsers, true, .unregisterUserRpc (cstring "alice")⟩ aliceUsers =
        (.status 0, ⟨usersTree, []⟩) := by
  decide

end DistributedSystems.Lab
