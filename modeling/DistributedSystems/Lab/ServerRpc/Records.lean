import DistributedSystems.Lab.ServerRpc.Daemon
import DistributedSystems.Support.Ledger

/-!
# The records of the daemon

The list of connected users is the table of a ledger: a CONNECT that answers 0 puts a record, a
DISCONNECT or UNREGISTER that answers 0 drops a name, and no other call has an entry. The daemon
deletes the first record of a name only, which is all of them since names are distinct
(`connected_eq_table`).
-/

namespace DistributedSystems.Lab

open Fs Support

/-- What a procedure enters in the ledger when its status is 0. -/
def Procedure.entry : Procedure → Option (Ledger.Entry Bytes UserServerData)
  | .connectUserRpc arg1 => some (.put ⟨arg1.name, arg1.port, arg1.ip⟩)
  | .disconnectUserRpc arg1 => some (.drop arg1)
  | .unregisterUserRpc arg1 => some (.drop arg1)
  | _ => none

/-- The entry of a call, given the store that it comes to. -/
def entryOf (x : Store × Call) : Option (Ledger.Entry Bytes UserServerData) :=
  if (storage1 x.2 x.1).1 = .status 0 then x.2.procedure.entry else none

/-- The entries of a run, in order. -/
def ledger (steps : List (Store × Call)) : List (Ledger.Entry Bytes UserServerData) :=
  steps.filterMap entryOf

theorem ledger_snoc (steps : List (Store × Call)) (s : Store) (a : Call) :
    ledger (steps ++ [(s, a)]) = ledger steps ++ (entryOf (s, a)).toList := by
  cases h : entryOf (s, a) <;> simp [ledger, h]

/-- The result of the last CONNECT that names the user. -/
def lastConnect (u : Bytes) (steps : List (Store × Call)) : Option Result :=
  (steps.filter fun x => match x.2.procedure with
    | .connectUserRpc arg1 => arg1.name = u
    | _ => false).getLast?.map fun x => (storage1 x.2 x.1).1

/-! ## One call -/

/-- What an entry does to a list of records. -/
def post (list : List UserServerData) (e : Ledger.Entry Bytes UserServerData) :
    List UserServerData :=
  list.filter (fun d => d.name ≠ e.key (·.name)) ++ e.added

theorem post_put {list : List UserServerData} {d : UserServerData} (h : d.name ∉ userNames list) :
    post list (.put d) = addElement d list := by
  have hkept : list.filter (fun x => x.name ≠ d.name) = list :=
    List.filter_eq_self.2 fun x hx => by
      have hne : x.name ≠ d.name := by
        intro he
        exact h (List.mem_map.2 ⟨x, hx, he⟩)
      simpa using hne
  calc post list (.put d) = list.filter (fun x => x.name ≠ d.name) ++ [d] := rfl
    _ = addElement d list := by rw [hkept, addElement]

theorem post_drop {list : List UserServerData} (h : (userNames list).Nodup) (u : Bytes) :
    post list (.drop u) = deleteElement u list := by
  rw [deleteElement_of_nodup h]
  exact List.append_nil _

section Outcomes

variable {s : Store} {c : SysCalls} {allocated : Bool}

theorem connected_register (u : Bytes) :
    (registerUserRpc1Svc c u s).2.connected = s.connected := by
  rcases registerUserRpc1Svc_cases c s u with ⟨t, -, -, h⟩ | ⟨-, h⟩ <;> rw [h]

theorem connected_publish (a : PublishArguments) :
    (publishFileRpc1Svc c a s).2.connected = s.connected := by
  rcases publishFileRpc1Svc_cases c s a with ⟨t, fd, -, -, -, -, ⟨t', -, h⟩ | h⟩ | ⟨-, h⟩ <;> rw [h]

theorem connected_delete (a : DeleteArguments) :
    (deleteFileRpc1Svc c a s).2.connected = s.connected := by
  rcases deleteFileRpc1Svc_cases c s a with ⟨t, -, -, h⟩ | ⟨-, h⟩ <;> rw [h]

/-- **A call does to the records what its entry says**, while the names are distinct. -/
theorem connected_storage1 (h : (userNames s.connected).Nodup) (a : Call) :
    (storage1 a s).2.connected = (entryOf (s, a)).toList.foldl post s.connected := by
  obtain ⟨c, allocated, p⟩ := a
  cases p with
  | registerUserRpc u => simp [storage1, entryOf, Procedure.entry, connected_register]
  | unregisterUserRpc u =>
    rcases unregisterUserRpc1Svc_cases c s u with ⟨-, -, hu⟩ | ⟨-, -, hu⟩ | ⟨-, hu⟩
    · simp [storage1, entryOf, Procedure.entry, hu, post_drop h]
    · simp [storage1, entryOf, hu]
    · simp [storage1, entryOf, hu]
  | connectUserRpc a =>
    rcases connectUserRpc1Svc_cases c s a with ⟨-, hnew, ha⟩ | ⟨-, hne, hsame⟩
    · have hput : post s.connected (.put ⟨a.name, a.port, a.ip⟩) = _ := post_put hnew
      simp [storage1, entryOf, Procedure.entry, ha, hput]
    · simp [storage1, entryOf, hne, hsame]
  | disconnectUserRpc u =>
    rcases disconnectUserRpc1Svc_cases c s u with ⟨-, -, hu⟩ | ⟨hne, hsame⟩
    · simp [storage1, entryOf, Procedure.entry, hu, post_drop h]
    · simp [storage1, entryOf, hne, hsame]
  | publishFileRpc a => simp [storage1, entryOf, Procedure.entry, connected_publish]
  | deleteFileRpc a => simp [storage1, entryOf, Procedure.entry, connected_delete]
  | listUsers u => simp [storage1, entryOf]
  | listContent u v => simp [storage1, entryOf]
  | isUserRegistered u => simp [storage1, entryOf]
  | isUserConnected u => simp [storage1, entryOf]

end Outcomes

/-! ## Runs -/

theorem table_ledger_snoc (steps : List (Store × Call)) (s : Store) (a : Call) :
    Ledger.table (·.name) (ledger (steps ++ [(s, a)])) =
      (entryOf (s, a)).toList.foldl post (Ledger.table (·.name) (ledger steps)) := by
  rw [ledger_snoc]
  cases entryOf (s, a) with
  | none => simp
  | some e => exact Ledger.table_snoc _ _ e

/-- The records at the end of a run are the table of its ledger. -/
theorem connected_eq_table {t : Tree} {steps : List (Store × Call)} {s : Store}
    (h : Run DaemonStep (initServer t) steps s) :
    s.connected = Ledger.table (·.name) (ledger steps) := by
  induction h with
  | nil => rfl
  | @snoc steps s s' a _ hs ih =>
    have hnd : (userNames s.connected).Nodup := by
      rw [ih]; exact Ledger.nodup_table _ _
    rw [← hs, connected_storage1 hnd, table_ledger_snoc, ih]

/-- **The records of the daemon**: names stay distinct, the list is the table of the ledger, and a
DISCONNECT or UNREGISTER that answers 0 takes away its user's record and no other. -/
theorem records_of_run {t : Tree} {steps : List (Store × Call)} {s : Store}
    (h : Run DaemonStep (initServer t) steps s) :
    (userNames s.connected).Nodup ∧ s.connected = Ledger.table (·.name) (ledger steps) ∧
      ∀ (a : Call) (u : Bytes),
        a.procedure = .disconnectUserRpc u ∨ a.procedure = .unregisterUserRpc u →
        (storage1 a s).1 = .status 0 →
          findElementByname (storage1 a s).2.connected u = 0 ∧
            (storage1 a s).2.connected = s.connected.filter (·.name ≠ u) := by
  have htable := connected_eq_table h
  have hnd : (userNames s.connected).Nodup := by rw [htable]; exact Ledger.nodup_table _ _
  refine ⟨hnd, htable, fun a u hp h0 => ?_⟩
  have hentry : entryOf (s, a) = some (.drop u) := by
    simp only [entryOf, h0, if_true]
    rcases hp with hp | hp <;> rw [hp] <;> rfl
  have hafter : (storage1 a s).2.connected = deleteElement u s.connected := by
    rw [connected_storage1 hnd, hentry]
    exact post_drop hnd u
  rw [hafter, findElementByname_eq_zero_iff, mem_userNames_deleteElement hnd]
  exact ⟨fun hu => hu.2 rfl, deleteElement_of_nodup hnd⟩

theorem records_of_connected_alice :
    let alice := cstring "alice"
    let call (p : Procedure) : Call := ⟨posix [], true, p⟩
    let s₁ := (storage1 (call (.registerUserRpc alice)) (initServer usersTree)).2
    let s₂ := (storage1 (call (.connectUserRpc ⟨alice, [], []⟩)) s₁).2
    (userNames s₂.connected).Nodup ∧
      s₂.connected = Ledger.table (·.name) (ledger [(initServer usersTree,
        call (.registerUserRpc alice)), (s₁, call (.connectUserRpc ⟨alice, [], []⟩))]) ∧
      ∀ (a : Call) (u : Bytes),
        a.procedure = .disconnectUserRpc u ∨ a.procedure = .unregisterUserRpc u →
        (storage1 a s₂).1 = .status 0 →
          findElementByname (storage1 a s₂).2.connected u = 0 ∧
            (storage1 a s₂).2.connected = s₂.connected.filter (·.name ≠ u) :=
  records_of_run ((Run.nil.snoc rfl).snoc rfl)

/-- A refused CONNECT of a connected user leaves the record: the last CONNECT of the user then has
not answered 0. -/
theorem refused_connect_keeps_record :
    ¬ ∀ (t : Tree) (steps : List (Store × Call)) (s : Store),
      Run DaemonStep (initServer t) steps s → ∀ u, u ∈ userNames s.connected →
        lastConnect u steps = some (.status 0) := by
  intro h
  let connect : Call := ⟨posix [], true, .connectUserRpc ⟨cstring "alice", [], []⟩⟩
  have hrun : Run DaemonStep (initServer usersTree) _ _ :=
    ((Run.nil.snoc (a := ⟨posix [], true, .registerUserRpc (cstring "alice")⟩) rfl).snoc
      (a := connect) rfl).snoc (a := connect) rfl
  exact absurd (h _ _ _ hrun (cstring "alice") (by decide)) (by decide)

end DistributedSystems.Lab
