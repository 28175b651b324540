import DistributedSystems.Lab.ServerRpc.Daemon
import DistributedSystems.Support.Xdr

/-!
# The messages of the daemon (`serverrpc/storage_xdr.c`, `serverrpc/storage_svc.c`)

The filters that `rpcgen` makes from `storage.x`, and `storage_1` from the bytes of a call to the
bytes of its reply. The argument of the procedures that take one string has no bound: `storage.x`
declares one, and `xdr_wrapstring` has none.

Whatever bytes come, the daemon does nothing or what it does for a procedure whose arguments are
within their bounds (`storageMessage_cases`), and the bytes that a client stub writes for a
procedure make it do this procedure (`storageMessage_arguments`).
-/

namespace DistributedSystems.Lab

open Fs Support

/-! ## The filters -/

section Filters

/-- The fields of a structure, in the order of the declaration. -/
def ConnectArguments.fields : Bytes × Bytes × Bytes ≃ ConnectArguments where
  toFun p := ⟨p.1, p.2.1, p.2.2⟩
  invFun a := (a.name, a.port, a.ip)
  left_inv _ := rfl
  right_inv _ := rfl

def PublishArguments.fields : Bytes × Bytes × Bytes ≃ PublishArguments where
  toFun p := ⟨p.1, p.2.1, p.2.2⟩
  invFun a := (a.name, a.fileName, a.fileDescription)
  left_inv _ := rfl
  right_inv _ := rfl

def DeleteArguments.fields : Bytes × Bytes ≃ DeleteArguments where
  toFun p := ⟨p.1, p.2⟩
  invFun a := (a.name, a.fileName)
  left_inv _ := rfl
  right_inv _ := rfl

def UserServer.fields : Bytes × Bytes × Bytes ≃ UserServer where
  toFun p := ⟨p.1, p.2.1, p.2.2⟩
  invFun u := (u.name, u.port, u.ip)
  left_inv _ := rfl
  right_inv _ := rfl

def Title.field : Bytes ≃ Title where
  toFun fileName := ⟨fileName⟩
  invFun t := t.fileName
  left_inv _ := rfl
  right_inv _ := rfl

def xdrConnectArguments : Xdr ConnectArguments :=
  .congr ConnectArguments.fields (.seq (.string 256) (.seq (.string 7) (.string 16)))

def xdrPublishArguments : Xdr PublishArguments :=
  .congr PublishArguments.fields (.seq (.string 256) (.seq (.string 256) (.string 256)))

def xdrDeleteArguments : Xdr DeleteArguments :=
  .congr DeleteArguments.fields (.seq (.string 256) (.string 256))

def xdrUserServer : Xdr UserServer :=
  .congr UserServer.fields (.seq (.string 256) (.seq (.string 7) (.string 16)))

/-- `maxsize` is `~0`. An element is three pointers. -/
def xdrUserList : Xdr (List UserServer) := .array xdrUserServer (2 ^ 32 - 1) 24

def xdrTitle : Xdr Title := .congr Title.field (.string 256)

/-- An element is one pointer. -/
def xdrTitleList : Xdr (List Title) := .array xdrTitle (2 ^ 32 - 1) 8

/-- `arg1` and `arg2`. -/
def xdrListContent1Argument : Xdr (Bytes × Bytes) := .seq (.string 256) (.string 256)

end Filters

/-! ## Calls -/

namespace Procedure

/-- The numbers of `storage.h`. -/
def number : Procedure → Nat
  | registerUserRpc _ => 1
  | unregisterUserRpc _ => 2
  | connectUserRpc _ => 3
  | disconnectUserRpc _ => 4
  | publishFileRpc _ => 5
  | deleteFileRpc _ => 6
  | listUsers _ => 7
  | listContent _ _ => 8
  | isUserRegistered _ => 9
  | isUserConnected _ => 10

/-- The arguments as a client stub writes them. -/
def arguments : Procedure → Option Bytes
  | registerUserRpc arg1 => Xdr.wrapstring.encode arg1
  | unregisterUserRpc arg1 => Xdr.wrapstring.encode arg1
  | connectUserRpc arg1 => xdrConnectArguments.encode arg1
  | disconnectUserRpc arg1 => Xdr.wrapstring.encode arg1
  | publishFileRpc arg1 => xdrPublishArguments.encode arg1
  | deleteFileRpc arg1 => xdrDeleteArguments.encode arg1
  | listUsers arg1 => Xdr.wrapstring.encode arg1
  | listContent arg1 arg2 => xdrListContent1Argument.encode (arg1, arg2)
  | isUserRegistered arg1 => Xdr.wrapstring.encode arg1
  | isUserConnected arg1 => Xdr.wrapstring.encode arg1

/-- The arguments are within the bounds of their filter. -/
def Carried : Procedure → Prop
  | registerUserRpc arg1 => Xdr.wrapstring.Carries arg1
  | unregisterUserRpc arg1 => Xdr.wrapstring.Carries arg1
  | connectUserRpc arg1 => xdrConnectArguments.Carries arg1
  | disconnectUserRpc arg1 => Xdr.wrapstring.Carries arg1
  | publishFileRpc arg1 => xdrPublishArguments.Carries arg1
  | deleteFileRpc arg1 => xdrDeleteArguments.Carries arg1
  | listUsers arg1 => Xdr.wrapstring.Carries arg1
  | listContent arg1 arg2 => xdrListContent1Argument.Carries (arg1, arg2)
  | isUserRegistered arg1 => Xdr.wrapstring.Carries arg1
  | isUserConnected arg1 => Xdr.wrapstring.Carries arg1

end Procedure

/-- `svc_getargs`: what follows the arguments is not looked at. -/
def svcGetargs {α : Type} (xdrArgument : Xdr α) (local_ : α → Procedure) (args : Bytes) :
    Option Procedure :=
  (xdrArgument.decode args).map fun r => local_ r.1

/-- The `switch` over the number of a call, with the arguments taken from its bytes: none for a
number that has no case. -/
def selectProcedure (rqProc : Nat) (args : Bytes) : Option (Option Procedure) :=
  match rqProc with
  | 1 => some (svcGetargs .wrapstring .registerUserRpc args)
  | 2 => some (svcGetargs .wrapstring .unregisterUserRpc args)
  | 3 => some (svcGetargs xdrConnectArguments .connectUserRpc args)
  | 4 => some (svcGetargs .wrapstring .disconnectUserRpc args)
  | 5 => some (svcGetargs xdrPublishArguments .publishFileRpc args)
  | 6 => some (svcGetargs xdrDeleteArguments .deleteFileRpc args)
  | 7 => some (svcGetargs .wrapstring .listUsers args)
  | 8 => some (svcGetargs xdrListContent1Argument (fun p => .listContent p.1 p.2) args)
  | 9 => some (svcGetargs .wrapstring .isUserRegistered args)
  | 10 => some (svcGetargs .wrapstring .isUserConnected args)
  | _ => none

/-- The argument bytes of a call with its number. -/
structure CallMessage where
  rqProc : Nat
  args : Bytes
deriving DecidableEq, Repr

/-- What comes back: the bytes of the result, or one of the errors of `svc.h`. -/
inductive ReplyMessage
  | success (results : Bytes)
  /-- `svcerr_noproc` -/
  | noproc
  /-- `svcerr_decode` -/
  | decode
  /-- `svcerr_systemerr` -/
  | systemerr
deriving DecidableEq, Repr

/-- `svc_sendreply`. `leftover` is what a result holds that has not been stored to. -/
def svcSendreply (leftover : Int) (result : Result) : ReplyMessage :=
  let results :=
    match result with
    | .status n => Xdr.int.encode n
    | .users list => xdrUserList.encode list
    | .titles list => xdrTitleList.encode list
    | .unset => Xdr.int.encode leftover
  match results with
  | some bytes => .success bytes
  | none => .systemerr

/-- The conditions that a call meets in the daemon. -/
structure CallConditions where
  calls : SysCalls
  allocated : Bool
  leftover : Int

/-- `storage_1`, from the message of a call to that of its reply. Every procedure returns a value
above 0, so that a reply is always sent. -/
def storageMessage (env : CallConditions) (m : CallMessage) (s : Store) : ReplyMessage × Store :=
  if m.rqProc = 0 then (.success [], s)
  else
    match selectProcedure m.rqProc m.args with
    | none => (.noproc, s)
    | some none => (.decode, s)
    | some (some procedure) =>
      let r := storage1 ⟨env.calls, env.allocated, procedure⟩ s
      (svcSendreply env.leftover r.1, r.2)

/-! ## From the bytes to the procedure and back -/

section Getargs

variable {α : Type} {f : Xdr α} {make : α → Procedure}

theorem svcGetargs_of_encode {a : α} (ha : f.Carries a) {args : Bytes}
    (h : f.encode a = some args) (more : Bytes) :
    svcGetargs f make (args ++ more) = some (make a) := by
  unfold svcGetargs
  rw [Xdr.decode_of_encode ha h, Option.map_some]

theorem svcGetargs_of_cut {a : α} (ha : f.Carries a) {args part : Bytes}
    (h : f.encode a = some args) (hpart : part <+: args) (hne : part ≠ args) :
    svcGetargs f make part = none := by
  unfold svcGetargs
  rw [Xdr.decode_of_cut ha h hpart hne, Option.map_none]

theorem exists_of_svcGetargs {args : Bytes} {p : Procedure} (h : svcGetargs f make args = some p) :
    ∃ a, f.Carries a ∧ make a = p := by
  obtain ⟨⟨a, rest⟩, hdec, hp⟩ := Option.map_eq_some_iff.1 h
  exact ⟨a, f.carries_decode _ _ _ hdec, hp⟩

end Getargs

namespace Procedure

variable {p : Procedure}

theorem exists_arguments (h : p.Carried) : ∃ args, p.arguments = some args := by
  cases p with
  | listContent arg1 arg2 =>
    obtain ⟨args, hargs, -⟩ := xdrListContent1Argument.decode_encode _ h
    exact ⟨args, hargs⟩
  | connectUserRpc arg1 =>
    obtain ⟨args, hargs, -⟩ := xdrConnectArguments.decode_encode _ h
    exact ⟨args, hargs⟩
  | publishFileRpc arg1 =>
    obtain ⟨args, hargs, -⟩ := xdrPublishArguments.decode_encode _ h
    exact ⟨args, hargs⟩
  | deleteFileRpc arg1 =>
    obtain ⟨args, hargs, -⟩ := xdrDeleteArguments.decode_encode _ h
    exact ⟨args, hargs⟩
  | registerUserRpc arg1 | unregisterUserRpc arg1 | disconnectUserRpc arg1 | listUsers arg1
  | isUserRegistered arg1 | isUserConnected arg1 =>
    obtain ⟨args, hargs, -⟩ := Xdr.wrapstring.decode_encode _ h
    exact ⟨args, hargs⟩

/-- The daemon selects the procedure that a stub has called, whatever follows the arguments. -/
theorem select_arguments (h : p.Carried) {args : Bytes} (hargs : p.arguments = some args)
    (more : Bytes) : selectProcedure p.number (args ++ more) = some (some p) := by
  cases p with
  | listContent arg1 arg2 =>
    exact congrArg some (svcGetargs_of_encode (a := (arg1, arg2)) h hargs _)
  | _ => exact congrArg some (svcGetargs_of_encode h hargs _)

theorem select_cut (h : p.Carried) {args part : Bytes} (hargs : p.arguments = some args)
    (hpart : part <+: args) (hne : part ≠ args) : selectProcedure p.number part = some none := by
  cases p with
  | listContent arg1 arg2 =>
    exact congrArg some (svcGetargs_of_cut (a := (arg1, arg2)) h hargs hpart hne)
  | _ => exact congrArg some (svcGetargs_of_cut h hargs hpart hne)

end Procedure

/-- What is selected is carried, and has the number of the call. -/
theorem selectProcedure_eq_some {rqProc : Nat} {args : Bytes} {p : Procedure}
    (h : selectProcedure rqProc args = some (some p)) : p.Carried ∧ p.number = rqProc := by
  unfold selectProcedure at h
  split at h
  case h_11 => cases h
  all_goals
    obtain ⟨a, ha, rfl⟩ := exists_of_svcGetargs (Option.some.inj h)
    exact ⟨ha, rfl⟩

/-! ## One message -/

section Message

variable (env : CallConditions) (s : Store)

/-- What the daemon does for a procedure. -/
def served (p : Procedure) : ReplyMessage × Store :=
  (svcSendreply env.leftover (storage1 ⟨env.calls, env.allocated, p⟩ s).1,
    (storage1 ⟨env.calls, env.allocated, p⟩ s).2)

theorem storageMessage_of_selected {m : CallMessage} {p : Procedure}
    (h : selectProcedure m.rqProc m.args = some (some p)) :
    storageMessage env m s = served env s p := by
  have h0 : m.rqProc ≠ 0 := by
    intro h0
    rw [h0] at h
    cases h
  simp only [storageMessage, if_neg h0, h]
  rfl

/-- The outcomes of a message. -/
theorem storageMessage_cases (m : CallMessage) :
    (∃ p : Procedure, p.Carried ∧ p.number = m.rqProc ∧
      selectProcedure m.rqProc m.args = some (some p) ∧ storageMessage env m s = served env s p) ∨
    ((∀ p, selectProcedure m.rqProc m.args ≠ some (some p)) ∧ (storageMessage env m s).2 = s) := by
  by_cases h : ∃ p, selectProcedure m.rqProc m.args = some (some p)
  · obtain ⟨p, hp⟩ := h
    obtain ⟨hcarried, hnumber⟩ := selectProcedure_eq_some hp
    exact Or.inl ⟨p, hcarried, hnumber, hp, storageMessage_of_selected env s hp⟩
  · have hnone : ∀ p, selectProcedure m.rqProc m.args ≠ some (some p) := fun p hp => h ⟨p, hp⟩
    refine Or.inr ⟨hnone, ?_⟩
    unfold storageMessage
    split
    · rfl
    · split
      · rfl
      · rfl
      · next p hp => exact absurd hp (hnone p)

/-- **Calls survive the wire**: the message of a procedure within its bounds makes the daemon do
just this procedure, whatever follows the arguments, and cut short anywhere it is refused and
changes nothing. -/
theorem storageMessage_arguments {p : Procedure} (h : p.Carried) :
    ∃ args, p.arguments = some args ∧
      (∀ more, storageMessage env ⟨p.number, args ++ more⟩ s = served env s p) ∧
      ∀ part, part <+: args → part ≠ args →
        storageMessage env ⟨p.number, part⟩ s = (.decode, s) := by
  obtain ⟨args, hargs⟩ := p.exists_arguments h
  refine ⟨args, hargs, fun more => ?_, fun part hpart hne => ?_⟩
  · exact storageMessage_of_selected env s (p.select_arguments h hargs more)
  · have h0 : p.number ≠ 0 := by cases p <;> exact Nat.succ_ne_zero _
    simp only [storageMessage, if_neg h0, p.select_cut h hargs hpart hne]

theorem storageMessage_register_alice :
    ∃ args, (Procedure.registerUserRpc (cstring "alice")).arguments = some args ∧
      (∀ more, storageMessage ⟨posix [], true, 0⟩ ⟨1, args ++ more⟩ (initServer usersTree) =
        served ⟨posix [], true, 0⟩ (initServer usersTree) (.registerUserRpc (cstring "alice"))) ∧
      ∀ part, part <+: args → part ≠ args →
        storageMessage ⟨posix [], true, 0⟩ ⟨1, part⟩ (initServer usersTree) =
          (.decode, initServer usersTree) :=
  storageMessage_arguments _ _ (p := .registerUserRpc (cstring "alice"))
    ⟨by decide, by decide, by decide⟩

end Message

end DistributedSystems.Lab
