import DistributedSystems.Lab.ServerC.Addresses
import DistributedSystems.Lab.ServerC.RpcThreads
import DistributedSystems.Lab.ServerRpc.RecordBlocks
import DistributedSystems.Lab.ServerRpc.MessageRuns

/-!
# The client stubs (`serverc/storage_clnt.c`)

A stub writes its arguments with a filter, and reads the result of the daemon's reply with another
one. `clntCall` is all of them, on a connection that carries each message to the other end. The
arrays of the front end are no longer than the bounds of `storage.x`, so that everything it sends is
carried, and so are the results unless a listing has too many entries or too long ones. A listing
whose memory is not cleared may find a stale pointer in it and store its elements anywhere; else the
front end does over the wire what it does with stubs that deliver every call (`run_wired_iff`).
-/

namespace DistributedSystems.Lab

open Fs Support Traced

/-! ## Calls -/

def rpcCantencodeargs : Int := 1
def rpcCantdecoderes : Int := 2
def rpcProcunavail : Int := 10
def rpcCantdecodeargs : Int := 11
def rpcSystemerror : Int := 12

/-- The memory of a result. The front end does not clear that of a list, so that its pointer may be
a stale one. -/
structure ResultMemory where
  before : Results
  /-- The pointer of a list is NULL before the call. -/
  null : Bool
  /-- What the filter of a list makes of these bytes when it stores the elements to where a stale
  pointer points. An element that is not there stands for the end of the process. -/
  stale : Bytes → Option Results
  /-- The memory after a call that has failed. -/
  failed : Int → Results

namespace Procedure

/-- The result is a list. -/
def listing : Procedure → Bool
  | listUsers _ => true
  | listContent _ _ => true
  | _ => false

/-- What a stub reads from the bytes of a result. The elements of a list are allocated if its
pointer is NULL. -/
def readResults (memory : ResultMemory) (results : Bytes) : Procedure → Option Results
  | listUsers _ =>
    if memory.null then
      (xdrUserList.decode results).map fun r => { memory.before with users := .of r.1 }
    else memory.stale results
  | listContent _ _ =>
    if memory.null then
      (xdrTitleList.decode results).map fun r => { memory.before with titles := .of r.1 }
    else memory.stale results
  | _ => (Xdr.int.decode results).map fun r => { memory.before with result := r.1 }

end Procedure

/-- `clnt_call`, with the daemon at the other end. -/
def clntCall (daemon : CallMessage → Store → ReplyMessage × Store) (memory : ResultMemory)
    (procedure : Procedure) (s : Store) : RpcReply :=
  match procedure.arguments with
  | none => ⟨rpcCantencodeargs, memory.failed rpcCantencodeargs, s⟩
  | some args =>
    let r := daemon ⟨procedure.number, args⟩ s
    match r.1 with
    | .success results =>
      match procedure.readResults memory results with
      | none => ⟨rpcCantdecoderes, memory.failed rpcCantdecoderes, r.2⟩
      | some after => ⟨rpcSuccess, after, r.2⟩
    | .noproc => ⟨rpcProcunavail, memory.failed rpcProcunavail, r.2⟩
    | .decode => ⟨rpcCantdecodeargs, memory.failed rpcCantdecodeargs, r.2⟩
    | .systemerr => ⟨rpcSystemerror, memory.failed rpcSystemerror, r.2⟩

/-- The stubs over the wire, as the threads of the front end call them. -/
def wireEnv (env : CallConditions) (memory : ResultMemory) (address : Option Bytes) : Env where
  calls := env.calls
  allocated := env.allocated
  address := address
  rpc := clntCall (storageMessage env) memory

/-! ## Carried results -/

/-- The lists that the daemon would send are ones that the filters take. -/
structure Sendable (env : CallConditions) (s : Store) : Prop where
  users : xdrUserList.Carries (listUsers1Svc env.allocated s)
  titles : ∀ arg2, xdrTitleList.Carries (listContent1Svc env.calls arg2 s)

/-- The result is within the bounds of its filter. -/
def Result.Carried (leftover : Int) : Result → Prop
  | .status n => Xdr.int.Carries n
  | .users list => xdrUserList.Carries list
  | .titles list => xdrTitleList.Carries list
  | .unset => Xdr.int.Carries leftover

/-- The result is what its filter reads. -/
def Result.ReadFrom (leftover : Int) (bytes : Bytes) : Result → Prop
  | .status n => ∀ rest, Xdr.int.decode (bytes ++ rest) = some (n, rest)
  | .users list => ∀ rest, xdrUserList.decode (bytes ++ rest) = some (list, rest)
  | .titles list => ∀ rest, xdrTitleList.decode (bytes ++ rest) = some (list, rest)
  | .unset => ∀ rest, Xdr.int.decode (bytes ++ rest) = some (leftover, rest)

theorem exists_sendreply {leftover : Int} {result : Result} (h : result.Carried leftover) :
    ∃ bytes, svcSendreply leftover result = .success bytes ∧ result.ReadFrom leftover bytes := by
  cases result with
  | status n =>
    obtain ⟨bytes, henc, hdec⟩ := Xdr.int.decode_encode n h
    exact ⟨bytes, by simp only [svcSendreply, henc], hdec⟩
  | users list =>
    obtain ⟨bytes, henc, hdec⟩ := xdrUserList.decode_encode list h
    exact ⟨bytes, by simp only [svcSendreply, henc], hdec⟩
  | titles list =>
    obtain ⟨bytes, henc, hdec⟩ := xdrTitleList.decode_encode list h
    exact ⟨bytes, by simp only [svcSendreply, henc], hdec⟩
  | unset =>
    obtain ⟨bytes, henc, hdec⟩ := Xdr.int.decode_encode leftover h
    exact ⟨bytes, by simp only [svcSendreply, henc], hdec⟩

/-- The status of a procedure is one of the documented ones. -/
theorem documented_storage1 (env : CallConditions) (s : Store) (p : Procedure) {n : Int}
    (h : (storage1 ⟨env.calls, env.allocated, p⟩ s).1 = .status n) : 0 ≤ n ∧ n ≤ 4 := by
  cases p with
  | registerUserRpc u =>
    obtain rfl := Result.status.inj h
    refine Documented.ite (by simp [Documented]) ?_
    cases env.calls.mkdir s.tree (userPath u) <;> simp [Documented]
  | unregisterUserRpc u | disconnectUserRpc u | connectUserRpc a =>
    obtain rfl := Result.status.inj h
    exact Documented.ite (by simp [Documented]) (.ite (by simp [Documented]) (by simp [Documented]))
  | publishFileRpc a =>
    obtain rfl := Result.status.inj h
    refine Documented.ite (by simp [Documented]) (.ite (by simp [Documented])
      (.ite (by simp [Documented]) ?_))
    cases env.calls.openCreate s.tree
        (strncat (userDirPath a.name) a.fileName a.fileName.length) with
    | none => simp [Documented]
    | some r =>
      dsimp only
      cases env.calls.write r.1 r.2 a.fileDescription <;> simp [Documented]
  | deleteFileRpc a =>
    obtain rfl := Result.status.inj h
    refine Documented.ite (by simp [Documented]) ?_
    cases env.calls.remove s.tree (strncat (userDirPath a.name) a.fileName a.fileName.length) <;>
      simp [Documented]
  | listUsers u | listContent u v | isUserRegistered u | isUserConnected u => cases h

theorem carried_storage1 {env : CallConditions} {s : Store} (hs : Sendable env s)
    (hleftover : Xdr.int.Carries env.leftover) (p : Procedure) :
    (storage1 ⟨env.calls, env.allocated, p⟩ s).1.Carried env.leftover := by
  cases hr : (storage1 ⟨env.calls, env.allocated, p⟩ s).1 with
  | status n =>
    obtain ⟨h0, h4⟩ := documented_storage1 env s p hr
    exact ⟨by omega, by omega⟩
  | unset => exact hleftover
  | users list =>
    cases p with
    | listUsers u =>
      obtain rfl := Result.users.inj hr
      exact hs.users
    | _ => cases hr
  | titles list =>
    cases p with
    | listContent u v =>
      obtain rfl := Result.titles.inj hr
      exact hs.titles v
    | _ => cases hr

/-! ## Calls that arrive -/

/-- The memory of a result that has been stored. -/
def Traced.Results.stored (before : Results) (leftover : Int) : Result → Results
  | .status n => { before with result := n }
  | .users list => { before with users := .of list }
  | .titles list => { before with titles := .of list }
  | .unset => { before with result := leftover }

section Calls

variable {env : CallConditions} {memory : ResultMemory} {s : Store} {p : Procedure}

theorem readResults_of_sendreply {bytes : Bytes} (hnull : p.listing → memory.null)
    (hr : (storage1 ⟨env.calls, env.allocated, p⟩ s).1.Carried env.leftover)
    (h : svcSendreply env.leftover (storage1 ⟨env.calls, env.allocated, p⟩ s).1 =
      .success bytes) :
    p.readResults memory bytes =
      some (memory.before.stored env.leftover (storage1 ⟨env.calls, env.allocated, p⟩ s).1) := by
  obtain ⟨bytes', hsend, hdec⟩ := exists_sendreply hr
  obtain rfl := ReplyMessage.success.inj (h.symm.trans hsend)
  cases p with
  | listUsers u | listContent u v =>
    have hread := hdec []
    rw [List.append_nil] at hread
    simp only [Procedure.readResults, if_pos (hnull rfl), hread, Option.map_some, storage1,
      Traced.Results.stored]
  | isUserRegistered u | isUserConnected u | registerUserRpc u | unregisterUserRpc u
  | connectUserRpc u | disconnectUserRpc u | publishFileRpc u | deleteFileRpc u =>
    have hread := hdec []
    rw [List.append_nil] at hread
    simp only [Procedure.readResults, hread, Option.map_some, storage1, Traced.Results.stored]

/-- **A call whose arguments and result are carried arrives**: its result is the one that the daemon
has, and so is the store. -/
theorem clntCall_carried (hnull : p.listing → memory.null) (hp : p.Carried)
    (hr : (storage1 ⟨env.calls, env.allocated, p⟩ s).1.Carried env.leftover) :
    clntCall (storageMessage env) memory p s =
      ⟨rpcSuccess, memory.before.stored env.leftover (storage1 ⟨env.calls, env.allocated, p⟩ s).1,
        (storage1 ⟨env.calls, env.allocated, p⟩ s).2⟩ := by
  obtain ⟨args, hargs⟩ := p.exists_arguments hp
  have hselect := p.select_arguments hp hargs []
  rw [List.append_nil] at hselect
  have hserved := storageMessage_of_selected env s (m := ⟨p.number, args⟩) hselect
  obtain ⟨bytes, hsend, -⟩ := exists_sendreply hr
  simp only [clntCall, hargs, hserved, served, hsend, readResults_of_sendreply hnull hr hsend]

/-- A call of a procedure with an `int`. -/
theorem stubResult_wire (address : Option Bytes) (hp : p.Carried) {n : Int} {s' : Store}
    (h : storage1 ⟨env.calls, env.allocated, p⟩ s = (.status n, s')) :
    (wireEnv env memory address).stubResult p s = (some n, s') := by
  have hstatus : (storage1 ⟨env.calls, env.allocated, p⟩ s).1.Carried env.leftover := by
    obtain ⟨h0, h4⟩ := documented_storage1 env s p (congrArg Prod.fst h)
    rw [h]
    exact ⟨by omega, by omega⟩
  have hnull : p.listing → memory.null := by
    intro hlisting
    cases p with
    | listUsers u | listContent u v => cases congrArg Prod.fst h
    | _ => cases hlisting
  simp only [Env.stubResult, wireEnv, clntCall_carried hnull hp hstatus, h, Traced.Results.stored,
    rpcSuccess, ne_eq, not_true_eq_false, if_false]

end Calls

/-! ## What the front end sends -/

/-- What an array of the front end can hold. -/
structure Held (size : Nat) (text : Bytes) : Prop where
  fits : text.length ≤ size
  nul_notMem : nul ∉ text

theorem Held.carries {size maxsize : Nat} {text : Bytes} (h : Held size text) (hle : size ≤ maxsize)
    (hlt : size < 2 ^ 32) : (Xdr.string maxsize).Carries text :=
  ⟨Nat.le_trans h.fits hle, Nat.lt_of_le_of_lt h.fits hlt, h.nul_notMem⟩

/-- A field that has come, or what its array held before. -/
theorem Arrived.held_next {size : Nat} (a : Arrived) (b : Buffer size) :
    Held size (a.next b).text := by
  have htake : ∀ s : Bytes, Plain s → Held size (s.take (size - 1)) := by
    intro s hs
    refine ⟨?_, (hs.take _).nul_notMem⟩
    rw [List.length_take]
    omega
  have htext : Held size b.text := by
    refine ⟨?_, fun hmem => ?_⟩
    · have hle := (List.takeWhile_prefix (p := (· ≠ nul)) (l := b.bytes)).length_le
      rw [b.length_bytes] at hle
      exact hle
    · simpa using List.mem_takeWhile_imp hmem
  unfold Arrived.next
  split
  · next x whole hwhole => exact htake x.text x.plain
  · split
    · exact htext
    · exact htake a.part a.plain

/-- The fields of a request fit the arrays of its handler. -/
def Request.Held : Request → Prop
  | .register u => Lab.Held maxSize u.text
  | .unregister u => Lab.Held maxSize u.text
  | .connect u port => Lab.Held maxSize u.text ∧ Lab.Held portSize port.text
  | .disconnect u => Lab.Held maxSize u.text
  | .publish u f d => Lab.Held maxSize u.text ∧ Lab.Held maxSize f.text ∧ Lab.Held maxSize d.text
  | .delete u f => Lab.Held maxSize u.text ∧ Lab.Held maxSize f.text

/-- And those of an operation. -/
def Operation.Held : Operation → Prop
  | .change request => request.Held
  | .listUsers u => Lab.Held maxSize u.text
  | .listContent v u => Lab.Held maxSize v.text ∧ Lab.Held maxSize u.text

/-- The operation asks for a list. -/
def Operation.listing : Operation → Bool
  | .change _ => false
  | _ => true

/-- Every operation of a connection has such fields, whatever has come and whatever was in the
arrays. -/
theorem held_operationOf {locals : Locals} {a : Arrived} {op : Operation}
    (h : operationOf locals a = some op) : op.Held := by
  unfold operationOf at h
  dsimp only at h
  split at h
  · rw [← Option.some.inj h]
    exact a.rest.held_next _
  split at h
  · rw [← Option.some.inj h]
    exact a.rest.held_next _
  split at h
  · rw [← Option.some.inj h]
    exact ⟨a.rest.held_next _, a.rest.rest.held_next _⟩
  split at h
  · rw [← Option.some.inj h]
    exact a.rest.held_next _
  split at h
  · rw [← Option.some.inj h]
    exact ⟨a.rest.held_next _, a.rest.rest.held_next _, a.rest.rest.rest.held_next _⟩
  split at h
  · rw [← Option.some.inj h]
    exact ⟨a.rest.held_next _, a.rest.rest.held_next _⟩
  split at h
  · rw [← Option.some.inj h]
    exact a.rest.held_next _
  split at h
  · rw [← Option.some.inj h]
    exact ⟨a.rest.held_next _, a.rest.rest.held_next _⟩
  · cases h

/-- `inet_ntoa` gives at most 15 characters. -/
theorem held_inetNtoa (x : InAddr) : Held ipSize (inetNtoa x) := by
  have hdecimal : ∀ n : UInt8, (decimal n).length ≤ 3 ∧ nul ∉ decimal n :=
    forall_uint8 (P := fun n => (decimal n).length ≤ 3 ∧ nul ∉ decimal n) (by decide +kernel)
  have hperiod : nul ≠ period := by decide
  obtain ⟨ha, ha'⟩ := hdecimal x.a
  obtain ⟨hb, hb'⟩ := hdecimal x.b
  obtain ⟨hc, hc'⟩ := hdecimal x.c
  obtain ⟨hd, hd'⟩ := hdecimal x.d
  refine ⟨?_, ?_⟩
  · simp only [inetNtoa, List.length_append, List.length_cons, ipSize]
    omega
  · simp [inetNtoa, ha', hb', hc', hd', hperiod]

/-! ## The front end over the wire -/

/-- The reply to an operation, if the front end gives one, and the daemon's store afterwards. -/
def Operation.runRpc (stubs : Stubs) (listStubs : ListStubs) (address : Option Bytes) (s : Store) :
    Operation → Option Bytes × Store
  | .change request =>
    (some (htonl (serveRpc stubs address request s).1), (serveRpc stubs address request s).2)
  | .listUsers u => (listUsersRpc.act listStubs u.text s, s)
  | .listContent v u => (listContentRpc.act listStubs v.text u.text s, s)

section Wire

variable {env : CallConditions} {memory : ResultMemory} {s : Store}

theorem carries_wrapstring_of_held {u : Bytes} (h : Held maxSize u) : Xdr.wrapstring.Carries u :=
  h.carries (by decide) (by decide)

/-- The address of a connection is the text of one, or could not be found. -/
theorem serveRpc_wire (address : Option InAddr) {r : Request} (hr : r.Held) :
    serveRpc (wireEnv env memory (address.map inetNtoa)).stubs (address.map inetNtoa) r s =
      serveRpc (.delivering env.calls) (address.map inetNtoa) r s := by
  have hstring : ∀ {t : Bytes}, Held maxSize t → (Xdr.string 256).Carries t :=
    fun h => h.carries (Nat.le_refl _) (by decide)
  cases r with
  | register u =>
    simp only [serveRpc, registerUserRpc.act, Env.stubs, Stubs.delivering, delivered,
      stubResult_wire (p := .registerUserRpc u.text) _ (carries_wrapstring_of_held hr) rfl]
  | unregister u =>
    simp only [serveRpc, unregisterUserRpc.act, Env.stubs, Stubs.delivering, delivered,
      stubResult_wire (p := .unregisterUserRpc u.text) _ (carries_wrapstring_of_held hr) rfl]
  | connect u port =>
    cases address with
    | none => rfl
    | some x =>
      have hcarried : (Procedure.connectUserRpc ⟨u.text, port.text, inetNtoa x⟩).Carried :=
        ⟨hstring hr.1, hr.2.carries (Nat.le_refl _) (by decide),
          (held_inetNtoa x).carries (Nat.le_refl _) (by decide)⟩
      simp only [serveRpc, connectUserRpc.act, Option.map_some, Env.stubs, Stubs.delivering,
        delivered, stubResult_wire _ hcarried rfl]
  | disconnect u =>
    simp only [serveRpc, disconnectUserRpc.act, Env.stubs, Stubs.delivering, delivered,
      stubResult_wire (p := .disconnectUserRpc u.text) _ (carries_wrapstring_of_held hr) rfl]
  | publish u f d =>
    have hcarried : (Procedure.publishFileRpc ⟨u.text, f.text, d.text⟩).Carried :=
      ⟨hstring hr.1, hstring hr.2.1, hstring hr.2.2⟩
    simp only [serveRpc, publishFileRpc.act, Env.stubs, Stubs.delivering, delivered,
      stubResult_wire _ hcarried rfl]
  | delete u f =>
    have hcarried : (Procedure.deleteFileRpc ⟨u.text, f.text⟩).Carried :=
      ⟨hstring hr.1, hstring hr.2⟩
    simp only [serveRpc, deleteFileRpc.act, Env.stubs, Stubs.delivering, delivered,
      stubResult_wire _ hcarried rfl]

/-- **One operation over the wire.** -/
theorem runRpc_wire (hleftover : Xdr.int.Carries env.leftover) (hs : Sendable env s)
    (address : Option InAddr) {op : Operation} (hnull : op.listing → memory.null) (hop : op.Held) :
    op.runRpc (wireEnv env memory (address.map inetNtoa)).stubs
        (wireEnv env memory (address.map inetNtoa)).listStubs (address.map inetNtoa) s =
      op.runRpc (.delivering env.calls) (.delivering env.calls env.allocated)
        (address.map inetNtoa) s := by
  have hcall : ∀ p : Procedure, (p.listing → memory.null) → p.Carried → _ := fun p hnull hp =>
    clntCall_carried hnull hp (carried_storage1 hs hleftover p)
  cases op with
  | change r => simp only [Operation.runRpc, serveRpc_wire address hop]
  | listUsers u =>
    have hstub : (wireEnv env memory (address.map inetNtoa)).listStubs.listUsers1 u.text s =
        (ListStubs.delivering env.calls env.allocated).listUsers1 u.text s := by
      simp only [Env.listStubs, wireEnv, storage1, Traced.Results.stored, ListStubs.delivering,
        hcall (.listUsers u.text) hnull (carries_wrapstring_of_held hop), decide_true]
    simp only [Operation.runRpc, listUsersRpc.act, hstub]
  | listContent v u =>
    have hcarried : (Procedure.listContent v.text u.text).Carried :=
      ⟨hop.1.carries (Nat.le_refl _) (by decide), hop.2.carries (Nat.le_refl _) (by decide)⟩
    have hstub :
        (wireEnv env memory (address.map inetNtoa)).listStubs.listContent1 v.text u.text s =
          (ListStubs.delivering env.calls env.allocated).listContent1 v.text u.text s := by
      simp only [Env.listStubs, wireEnv, storage1, Traced.Results.stored, ListStubs.delivering,
        hcall (.listContent v.text u.text) hnull hcarried, decide_true]
    simp only [Operation.runRpc, listContentRpc.act, hstub]

end Wire

/-- A connection: the conditions in the daemon, what is in the arrays of the thread that serves it,
the bytes that come, and the address that the socket gives. -/
structure Connection where
  env : CallConditions
  memory : ResultMemory
  locals : Locals
  arrived : Arrived
  address : Option InAddr

/-- The front end serves a connection and sends a reply, over stubs that depend on it. -/
def FrontEndStep (stubs : Connection → Stubs × ListStubs) (s : Store)
    (a : Connection × Option Bytes) (s' : Store) : Prop :=
  ∃ op, operationOf a.1.locals a.1.arrived = some op ∧
    op.runRpc (stubs a.1).1 (stubs a.1).2 (a.1.address.map inetNtoa) s = (a.2, s')

/-- The stubs over the wire. -/
def Connection.wired (k : Connection) : Stubs × ListStubs :=
  ((wireEnv k.env k.memory (k.address.map inetNtoa)).stubs,
    (wireEnv k.env k.memory (k.address.map inetNtoa)).listStubs)

/-- The stubs that deliver every call. -/
def Connection.delivered (k : Connection) : Stubs × ListStubs :=
  (.delivering k.env.calls, .delivering k.env.calls k.env.allocated)

/-- The most titles that the filter of the list takes. -/
def maxTitles : Nat := (2 ^ 32 - 1) / 8

/-- What the daemon finds: a POSIX system, few enough users and files, names that a directory can
have, and an `int` in an `int`. A listing finds a NULL pointer in the memory of its result. -/
structure Connection.Usual (cwd : Pos) (s : Store) (k : Connection) : Prop where
  calls : k.env.calls ≤ posix cwd
  users : s.connected.length ≤ maxUsers
  files : s.tree.entries.length + 2 ≤ maxTitles
  names : ∀ x ∈ s.tree.entries, ∀ n ∈ x.1, n.length ≤ 255
  leftover : -2 ^ 31 ≤ k.env.leftover ∧ k.env.leftover < 2 ^ 31
  null : ∀ op, operationOf k.locals k.arrived = some op → op.listing → k.memory.null

section Usual

variable {cwd : Pos} {s s' : Store}

theorem Connection.Usual.held_entries {k : Connection} (h : k.Usual cwd s) {path : Bytes}
    {entries : List Bytes} (ho : k.env.calls.opendir s.tree path = some entries) :
    entries.length ≤ maxTitles ∧ ∀ dName ∈ entries, Held 255 dName := by
  obtain ⟨p, -, -, rfl⟩ := posix.opendir_eq_some_iff.1 (SysCalls.opendir_of_le h.calls ho)
  unfold listing
  refine ⟨?_, fun dName hmem => ?_⟩
  · have hle := List.length_filterMap_le
      (fun x : Pos × Entry => if x.1 ≠ [] ∧ x.1.dropLast = p then x.1.getLast? else none)
      s.tree.entries
    have hfiles := h.files
    rw [List.length_cons, List.length_cons]
    unfold Tree.names
    omega
  · rcases List.mem_cons.1 hmem with rfl | hmem
    · exact ⟨by decide, by decide⟩
    rcases List.mem_cons.1 hmem with rfl | hmem
    · exact ⟨by decide, by decide⟩
    · obtain ⟨e, he⟩ := Option.isSome_iff_exists.1 (Tree.mem_names.1 hmem)
      exact ⟨h.names _ (Tree.get_snoc_eq_some_iff.1 he) dName (by simp),
        (Tree.validName_of_get he).2.2.1⟩

theorem Connection.Usual.sendable {k : Connection} (h : k.Usual cwd s) (hs : RecordsCarried s) :
    Sendable k.env s := by
  refine ⟨hs.carries_listUsers h.users _, fun arg2 => ?_⟩
  have hone : ∀ fileName, Held 255 fileName → xdrTitle.Carries ⟨fileName⟩ :=
    fun _ hname => hname.carries (by decide) (by decide)
  unfold listContent1Svc
  split
  · exact ⟨by decide, fun title htitle => by
      rw [List.mem_singleton.1 htitle]
      exact hone _ ⟨by decide, by decide⟩⟩
  · cases ho : k.env.calls.opendir s.tree (userDirPath arg2) with
    | none =>
      exact ⟨by decide, fun title htitle => by
        rw [List.mem_singleton.1 htitle]
        exact hone _ ⟨by decide, by decide⟩⟩
    | some entries =>
      obtain ⟨hcount, hnames⟩ := h.held_entries ho
      have hle : (fileNames entries).length ≤ maxTitles :=
        Nat.le_trans (List.length_filter_le _ _) hcount
      refine ⟨⟨?_, ?_⟩, fun title htitle => ?_⟩
      · have hmax : maxTitles ≤ 2 ^ 32 - 1 := by decide
        rw [List.length_map]
        exact Nat.le_trans hle hmax
      · rw [List.length_map]
        exact hle
      · obtain ⟨dName, hmem, rfl⟩ := List.mem_map.1 htitle
        exact hone _ (hnames dName (List.mem_filter.1 hmem).1)

/-- What the front end does with its fields is nothing, or a call of the daemon with arguments
within their bounds. -/
theorem runRpc_delivering_cases (c : SysCalls) (allocated : Bool) (address : Option InAddr)
    {op : Operation} (hop : op.Held) :
    let r := op.runRpc (.delivering c) (.delivering c allocated) (address.map inetNtoa) s
    r.2 = s ∨ ∃ p : Procedure, p.Carried ∧ r.2 = (storage1 ⟨c, allocated, p⟩ s).2 := by
  have hstring : ∀ {t : Bytes}, Held maxSize t → (Xdr.string 256).Carries t :=
    fun h => h.carries (Nat.le_refl _) (by decide)
  cases op with
  | listUsers u | listContent v u => exact Or.inl rfl
  | change r =>
    refine (em (∃ u port, r = .connect u port)).elim ?_ ?_
    · rintro ⟨u, port, rfl⟩
      cases address with
      | none => exact Or.inl rfl
      | some x =>
        exact Or.inr ⟨.connectUserRpc ⟨u.text, port.text, inetNtoa x⟩,
          ⟨hstring hop.1, hop.2.carries (Nat.le_refl _) (by decide),
            (held_inetNtoa x).carries (Nat.le_refl _) (by decide)⟩, rfl⟩
    · intro hne
      refine Or.inr ?_
      cases r with
      | register u => exact ⟨.registerUserRpc u.text, carries_wrapstring_of_held hop, rfl⟩
      | unregister u => exact ⟨.unregisterUserRpc u.text, carries_wrapstring_of_held hop, rfl⟩
      | connect u port => exact absurd ⟨u, port, rfl⟩ hne
      | disconnect u => exact ⟨.disconnectUserRpc u.text, carries_wrapstring_of_held hop, rfl⟩
      | publish u f d =>
        exact ⟨.publishFileRpc ⟨u.text, f.text, d.text⟩,
          ⟨hstring hop.1, hstring hop.2.1, hstring hop.2.2⟩, rfl⟩
      | delete u f =>
        exact ⟨.deleteFileRpc ⟨u.text, f.text⟩, ⟨hstring hop.1, hstring hop.2⟩, rfl⟩

theorem listable_step {a : Connection × Option Bytes} (hs : RecordsCarried s)
    (h : FrontEndStep Connection.delivered s a s') : RecordsCarried s' := by
  obtain ⟨op, hop, hrun⟩ := h
  have hstore := congrArg Prod.snd hrun
  dsimp only at hstore
  rcases runRpc_delivering_cases a.1.env.calls a.1.env.allocated a.1.address
    (held_operationOf hop) (s := s) with hsame | ⟨p, hp, hcall⟩
  · rw [← hstore]
    unfold Connection.delivered
    rw [hsame]
    exact hs
  · rw [← hstore]
    unfold Connection.delivered
    rw [hcall]
    exact hs.storage1 hp

/-- A step over the wire is one over stubs that deliver. -/
theorem frontEndStep_wired_iff {a : Connection × Option Bytes} (hs : RecordsCarried s)
    (ha : a.1.Usual cwd s) : FrontEndStep Connection.wired s a s' ↔
      FrontEndStep Connection.delivered s a s' := by
  refine exists_congr fun op => and_congr_right fun hop => ?_
  unfold Connection.wired Connection.delivered
  rw [runRpc_wire ha.leftover (ha.sendable hs) a.1.address (ha.null op hop) (held_operationOf hop)]

/-- **The wire delivers.** Whatever bytes come on any connections, whatever the arrays of the
threads held before, and with pointers of lists that are NULL, the front end and the daemon reply
and store over the wire exactly what they do with stubs that deliver every call and every result
unchanged. -/
theorem run_wired_iff {t : Tree} {steps : List (Store × Connection × Option Bytes)}
    (hG : Guarded (fun s a => a.1.Usual cwd s) steps) :
    Run (FrontEndStep Connection.wired) (initServer t) steps s ↔
      Run (FrontEndStep Connection.delivered) (initServer t) steps s := by
  have hlistable : ∀ {steps s}, Run (FrontEndStep Connection.delivered) (initServer t) steps s →
      RecordsCarried s := by
    intro steps s h
    induction h with
    | nil => exact listable_initServer t
    | snoc _ hstep ih => exact listable_step ih hstep
  constructor
  · intro h
    induction h with
    | nil => exact .nil
    | snoc _ hstep ih =>
      obtain ⟨hG, hGs⟩ := guarded_snoc.1 hG
      have hrun := ih hG
      exact hrun.snoc ((frontEndStep_wired_iff (hlistable hrun) hGs).1 hstep)
  · intro h
    induction h with
    | nil => exact .nil
    | snoc hrun hstep ih =>
      obtain ⟨hG, hGs⟩ := guarded_snoc.1 hG
      exact (ih hG).snoc ((frontEndStep_wired_iff (hlistable hrun) hGs).2 hstep)

end Usual

/-- A connection over which `alice` registers. -/
def registeringAlice : Connection where
  env := ⟨posix [], true, 0⟩
  memory := ⟨.empty, true, fun _ => none, fun _ => .empty⟩
  locals := Variables.zeros.toLocals
  arrived := .of (cstring "REGISTER\x00alice\x00")
  address := some ⟨127, 0, 0, 1⟩

theorem wired_registering_alice :
    let s := (storage1 ⟨posix [], true, .registerUserRpc (cstring "alice")⟩
      (initServer usersTree)).2
    Run (FrontEndStep Connection.wired) (initServer usersTree)
        [(initServer usersTree, registeringAlice, some (htonl 0))] s ↔
      Run (FrontEndStep Connection.delivered) (initServer usersTree)
        [(initServer usersTree, registeringAlice, some (htonl 0))] s := by
  have hG : Guarded (fun s a => a.1.Usual [] s)
      [(initServer usersTree, registeringAlice, some (htonl 0))] := by
    intro x hx
    obtain rfl := List.mem_singleton.1 hx
    exact ⟨SysCalls.le_refl _, by decide, by decide, by decide, by decide, fun _ _ _ => rfl⟩
  exact run_wired_iff hG

end DistributedSystems.Lab
