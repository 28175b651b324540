import DistributedSystems.Lab.ServerRpc.RecordBlocks
import DistributedSystems.Lab.ServerRpc.Records
import DistributedSystems.Lab.ServerRpc.StorageXdr

/-!
# Runs of the daemon over messages

What `storage_svc.c` makes of any sequence of call messages, well formed or not, is a run of the
daemon (`daemonRun_of_messages`). The arguments of its calls are within the bounds of their filters,
which bounds the records too. If those that are connected with also fit the arrays of a record,
which the filters do not see to, LIST_USERS can be answered as long as the number of users is one
that the filter of the list takes (`listUsers_of_messages`).
-/

namespace DistributedSystems.Lab

open Fs Support

/-- The daemon takes the message of a call, any bytes. -/
def MessageStep (s : Store) (a : CallConditions × CallMessage) (s' : Store) : Prop :=
  (storageMessage a.1 a.2 s).2 = s'

/-- The call that a message stands for, if it stands for one. -/
def callOf (a : CallConditions × CallMessage) : Option Call :=
  match selectProcedure a.2.rqProc a.2.args with
  | some (some p) => some ⟨a.1.calls, a.1.allocated, p⟩
  | _ => none

/-- The calls that the messages of a run stand for. -/
def callsOf (steps : List (Store × CallConditions × CallMessage)) : List (Store × Call) :=
  steps.filterMap fun x => (callOf x.2).map fun call => (x.1, call)

theorem carried_of_callOf {a : CallConditions × CallMessage} {call : Call}
    (h : callOf a = some call) : call.procedure.Carried := by
  unfold callOf at h
  split at h
  · next p hp =>
    rw [← Option.some.inj h]
    exact (selectProcedure_eq_some hp).1
  · cases h

/-- **A run over messages is a run of the daemon**, on the calls that the messages stand for, whose
arguments are all within their bounds. -/
theorem daemonRun_of_messages {s₀ s : Store} {steps : List (Store × CallConditions × CallMessage)}
    (h : Run MessageStep s₀ steps s) :
    Run DaemonStep s₀ (callsOf steps) s ∧ ∀ x ∈ callsOf steps, x.2.procedure.Carried := by
  refine ⟨?_, ?_⟩
  · induction h with
    | nil => exact .nil
    | @snoc steps s s' a _ hs ih =>
      unfold callsOf at ih ⊢
      rw [filterMap_snoc]
      rcases storageMessage_cases a.1 s a.2 with ⟨p, -, -, hp, hdoes⟩ | ⟨hnone, hsame⟩
      · have hcall : callOf a = some ⟨a.1.calls, a.1.allocated, p⟩ := by
          simp only [callOf, hp]
        have hstep : DaemonStep s ⟨a.1.calls, a.1.allocated, p⟩ s' := by
          unfold MessageStep at hs
          rw [hdoes] at hs
          exact hs
        simp only [hcall, Option.map_some, Option.toList_some]
        exact ih.snoc hstep
      · have hcall : callOf a = none := by
          unfold callOf
          split
          · next p hp => exact absurd hp (hnone p)
          · rfl
        simp only [hcall, Option.map_none, Option.toList_none, List.append_nil]
        unfold MessageStep at hs
        rw [← hs, hsame]
        exact ih
  · intro x hx
    obtain ⟨y, -, hy⟩ := List.mem_filterMap.1 hx
    obtain ⟨call, hcall, rfl⟩ := Option.map_eq_some_iff.1 hy
    exact carried_of_callOf hcall

/-! ## Records -/

/-- A record as LIST_USERS gives it back. -/
def UserServerData.listed (d : UserServerData) : UserServer := ⟨d.name, d.port, d.ipAddress⟩

/-- A call leaves no record that was not there before, but that of its own arguments. -/
theorem mem_connected_storage1 {a : Call} {s : Store} {d : UserServerData}
    (hd : d ∈ (storage1 a s).2.connected) :
    d ∈ s.connected ∨ a.procedure = .connectUserRpc ⟨d.name, d.port, d.ipAddress⟩ := by
  obtain ⟨c, allocated, p⟩ := a
  cases p with
  | registerUserRpc u =>
    change d ∈ (registerUserRpc1Svc c u s).2.connected at hd
    rw [connected_register] at hd
    exact Or.inl hd
  | publishFileRpc a =>
    change d ∈ (publishFileRpc1Svc c a s).2.connected at hd
    rw [connected_publish] at hd
    exact Or.inl hd
  | deleteFileRpc a =>
    change d ∈ (deleteFileRpc1Svc c a s).2.connected at hd
    rw [connected_delete] at hd
    exact Or.inl hd
  | unregisterUserRpc u =>
    change d ∈ (unregisterUserRpc1Svc c u s).2.connected at hd
    rcases unregisterUserRpc1Svc_cases c s u with ⟨-, -, hu⟩ | ⟨-, -, hu⟩ | ⟨-, hu⟩
    · rw [hu] at hd
      exact Or.inl ((deleteElement_sublist u s.connected).subset hd)
    · rw [hu] at hd
      exact Or.inl hd
    · rw [hu] at hd
      exact Or.inl hd
  | disconnectUserRpc u =>
    change d ∈ (disconnectUserRpc1Svc c u s).2.connected at hd
    rcases disconnectUserRpc1Svc_cases c s u with ⟨-, -, hu⟩ | ⟨-, hsame⟩
    · rw [hu] at hd
      exact Or.inl ((deleteElement_sublist u s.connected).subset hd)
    · rw [hsame] at hd
      exact Or.inl hd
  | connectUserRpc a =>
    change d ∈ (connectUserRpc1Svc c a s).2.connected at hd
    rcases connectUserRpc1Svc_cases c s a with ⟨-, -, ha⟩ | ⟨-, -, hsame⟩
    · rw [ha, addElement] at hd
      rcases List.mem_append.1 hd with hd | hd
      · exact Or.inl hd
      · rw [List.mem_singleton.1 hd]
        exact Or.inr rfl
    · rw [hsame] at hd
      exact Or.inl hd
  | listUsers u | listContent u v | isUserRegistered u | isUserConnected u => exact Or.inl hd

/-- Every record is one that LIST_USERS can send. -/
def RecordsCarried (s : Store) : Prop := ∀ d ∈ s.connected, xdrUserServer.Carries d.listed

theorem listable_initServer (t : Tree) : RecordsCarried (initServer t) := fun _ hd =>
  absurd hd List.not_mem_nil

/-- A call whose arguments are within their bounds keeps the records within them. -/
theorem RecordsCarried.storage1 {a : Call} {s : Store} (h : RecordsCarried s)
    (ha : a.procedure.Carried) : RecordsCarried (Lab.storage1 a s).2 := by
  intro d hd
  rcases mem_connected_storage1 hd with hd | hp
  · exact h d hd
  · rw [hp] at ha
    exact ha

theorem listable_of_messages {t : Tree} {steps : List (Store × CallConditions × CallMessage)}
    {s : Store} (h : Run MessageStep (initServer t) steps s) : RecordsCarried s := by
  obtain ⟨hrun, hcarried⟩ := daemonRun_of_messages h
  have hguarded : Guarded (fun _ a => a.procedure.Carried) (callsOf steps) := hcarried
  refine hrun.invariant_of_guard (listable_initServer t) (fun s a s' hs ha hstep => ?_) hguarded
  rw [← hstep]
  exact hs.storage1 ha

/-! ## Records in their arrays -/

/-- The arguments of the CONNECT that stores the record. -/
def UserServerData.arguments (d : UserServerData) : ConnectArguments :=
  ⟨d.name, d.port, d.ipAddress⟩

/-- A CONNECT that is accepted has strings that leave room for their NULs. -/
def FitsRecord (s : Store) (a : CallConditions × CallMessage) : Prop :=
  ∀ call arg1, callOf a = some call → call.procedure = .connectUserRpc arg1 →
    (connectUserRpc1Svc call.calls arg1 s).1 = 0 → arg1.Short

/-- The strings of every record fit its arrays. -/
def RecordsShort (s : Store) : Prop := ∀ d ∈ s.connected, d.arguments.Short

theorem RecordsShort.storage1 {a : Call} {s : Store} (h : RecordsShort s)
    (ha : ∀ arg1, a.procedure = .connectUserRpc arg1 →
      (connectUserRpc1Svc a.calls arg1 s).1 = 0 → arg1.Short) :
    RecordsShort (Lab.storage1 a s).2 := by
  intro d hd
  rcases mem_connected_storage1 hd with hold | hp
  · exact h d hold
  · obtain ⟨c, allocated, p⟩ := a
    obtain rfl := hp
    rcases connectUserRpc1Svc_cases c s d.arguments with ⟨-, -, haccepted⟩ | ⟨-, -, hsame⟩
    · exact ha d.arguments rfl (congrArg Prod.fst haccepted)
    · -- a CONNECT that is refused has stored nothing
      change d ∈ (connectUserRpc1Svc c d.arguments s).2.connected at hd
      rw [hsame] at hd
      exact h d hd

theorem short_of_messages {t : Tree} {steps : List (Store × CallConditions × CallMessage)}
    {s : Store} (h : Run MessageStep (initServer t) steps s) (hG : Guarded FitsRecord steps) :
    RecordsShort s := by
  refine h.invariant_of_guard (fun d hd => absurd hd List.not_mem_nil) ?_ hG
  intro s a s' hs ha hstep
  unfold MessageStep at hstep
  rcases storageMessage_cases a.1 s a.2 with ⟨p, -, -, hp, hdoes⟩ | ⟨-, hsame⟩
  · rw [← hstep, hdoes]
    refine hs.storage1 fun arg1 hproc hzero => ?_
    refine ha ⟨a.1.calls, a.1.allocated, p⟩ arg1 ?_ hproc hzero
    simp only [callOf, hp]
  · rw [← hstep, hsame]
    exact hs

/-- Records that fit stand in blocks. -/
theorem exists_blocks {list : List UserServerData}
    (h : ∀ d ∈ list, xdrUserServer.Carries d.listed) (hs : ∀ d ∈ list, d.arguments.Short) :
    ∃ blocks, List.Forall₂ Encodes blocks list := by
  induction list with
  | nil => exact ⟨[], .nil⟩
  | cons d list ih =>
    obtain ⟨hd, hlist⟩ := List.forall_mem_cons.1 h
    obtain ⟨hshort, hshorts⟩ := List.forall_mem_cons.1 hs
    obtain ⟨blocks, hblocks⟩ := ih hlist hshorts
    have hdecoded : d.arguments.Decoded :=
      ⟨⟨hd.1.1, hd.1.2.2⟩, ⟨hd.2.1.1, hd.2.1.2.2⟩, ⟨hd.2.2.1, hd.2.2.2.2⟩⟩
    obtain ⟨b, -, hb⟩ := copyTo_encodes hdecoded hshort (Buffer.zeros _)
    exact ⟨b :: blocks, .cons hb hblocks⟩

/-- The most users that the filter of the list takes. -/
def maxUsers : Nat := (2 ^ 32 - 1) / 24

theorem listUsers1Svc_allocated (s : Store) :
    listUsers1Svc true s = s.connected.map UserServerData.listed := rfl

theorem RecordsCarried.carries_listUsers {s : Store} (h : RecordsCarried s)
    (hfew : s.connected.length ≤ maxUsers) (allocated : Bool) :
    xdrUserList.Carries (listUsers1Svc allocated s) := by
  have hle : maxUsers ≤ 2 ^ 32 - 1 := by decide
  cases allocated with
  | true =>
    rw [listUsers1Svc_allocated]
    refine ⟨⟨?_, ?_⟩, fun u hu => ?_⟩
    · rw [List.length_map]
      exact Nat.le_trans hfew hle
    · rw [List.length_map]
      exact hfew
    · obtain ⟨d, hd, rfl⟩ := List.mem_map.1 hu
      exact h d hd
  | false =>
    -- one user whose fields are three bytes with their zero
    have hstring : ∀ n, 2 ≤ n → (Xdr.string n).Carries (cstring "-1") := fun n hn =>
      ⟨hn, by decide, by decide⟩
    have hone : Xdr.ArrayFits (2 ^ 32 - 1) 24 1 := by decide
    refine ⟨hone, fun u hu => ?_⟩
    rw [List.mem_singleton.1 hu]
    exact ⟨hstring 256 (by decide), hstring 7 (by decide), hstring 16 (by decide)⟩

/-- **LIST_USERS after any messages.** In every state that call messages of any bytes lead to whose
accepted CONNECTs fit a record, the names are distinct, the blocks of the records can be copied for
the list, and a LIST_USERS that can be decoded is answered, when the list is no longer than its
filter allows, with bytes from which a client reads exactly the records. -/
theorem listUsers_of_messages {t : Tree}
    {steps : List (Store × CallConditions × CallMessage)} {s : Store}
    (h : Run MessageStep (initServer t) steps s) (hG : Guarded FitsRecord steps)
    (hfew : s.connected.length ≤ maxUsers) (env : CallConditions)
    (hallocated : env.allocated = true) {m : CallMessage} {arg1 : Bytes}
    (hm : selectProcedure m.rqProc m.args = some (some (.listUsers arg1))) :
    (userNames s.connected).Nodup ∧
      (∃ b : BlockStore, b.Refines s ∧
        listUsers1Svc.blocks b = some (s.connected.map UserServerData.listed)) ∧
      ∃ bytes, storageMessage env m s = (.success bytes, s) ∧
        ∀ rest, xdrUserList.decode (bytes ++ rest) =
          some (s.connected.map UserServerData.listed, rest) := by
  refine ⟨?_, ?_, ?_⟩
  · rw [connected_eq_table (daemonRun_of_messages h).1]
    exact Ledger.nodup_table _ _
  · obtain ⟨blocks, hblocks⟩ := exists_blocks (listable_of_messages h) (short_of_messages h hG)
    have hrefines : (⟨s.tree, blocks⟩ : BlockStore).Refines s := ⟨rfl, hblocks⟩
    exact ⟨_, hrefines, listUsers1Svc.blocks_refines hrefines⟩
  · have hcarries := (listable_of_messages h).carries_listUsers hfew true
    rw [listUsers1Svc_allocated] at hcarries
    obtain ⟨bytes, hencode, hdecode⟩ := xdrUserList.decode_encode _ hcarries
    refine ⟨bytes, ?_, hdecode⟩
    rw [storageMessage_of_selected env s hm]
    simp only [served, storage1, hallocated, listUsers1Svc_allocated, svcSendreply, hencode]

/-- The argument `alice`, as a stub writes it. -/
def aliceArgument : Bytes := cstring "\x00\x00\x00\x05alice\x00\x00\x00"

/-- A REGISTER and a CONNECT of `alice`, and between them a number that no procedure has. -/
def aliceMessages : List (CallConditions × CallMessage) :=
  [(⟨posix [], true, 0⟩, ⟨1, aliceArgument⟩), (⟨posix [], true, 0⟩, ⟨11, []⟩),
    (⟨posix [], true, 0⟩, ⟨3, aliceArgument ++ List.replicate 8 0⟩)]

/-- Where they lead. -/
def connectedAliceStore : Store :=
  aliceMessages.foldl (fun s a => (storageMessage a.1 a.2 s).2) (initServer usersTree)

theorem listUsers_of_connected_alice :
    (userNames connectedAliceStore.connected).Nodup ∧
      (∃ b : BlockStore, b.Refines connectedAliceStore ∧
        listUsers1Svc.blocks b =
          some (connectedAliceStore.connected.map UserServerData.listed)) ∧
      ∃ bytes, storageMessage ⟨posix [], true, 0⟩ ⟨7, aliceArgument⟩ connectedAliceStore =
          (.success bytes, connectedAliceStore) ∧
        ∀ rest, xdrUserList.decode (bytes ++ rest) =
          some (connectedAliceStore.connected.map UserServerData.listed, rest) := by
  have hregister : callOf aliceMessages[0] =
      some ⟨posix [], true, .registerUserRpc (cstring "alice")⟩ := rfl
  have hunknown : callOf aliceMessages[1] = none := rfl
  have hconnect : callOf aliceMessages[2] =
      some ⟨posix [], true, .connectUserRpc ⟨cstring "alice", [], []⟩⟩ := rfl
  refine listUsers_of_messages (t := usersTree) (((Run.nil.snoc (a := aliceMessages[0]) rfl).snoc
    (a := aliceMessages[1]) rfl).snoc (a := aliceMessages[2]) rfl) ?_ (by decide +kernel)
    ⟨posix [], true, 0⟩ rfl rfl
  refine guarded_snoc.2 ⟨guarded_snoc.2 ⟨guarded_snoc.2 ⟨guarded_nil _, ?_⟩, ?_⟩, ?_⟩
  · intro call arg1 hcall hproc
    obtain rfl := Option.some.inj (hregister.symm.trans hcall)
    cases hproc
  · intro call arg1 hcall
    cases hunknown.symm.trans hcall
  · intro call arg1 hcall hproc _
    obtain rfl := Option.some.inj (hconnect.symm.trans hcall)
    obtain rfl := Procedure.connectUserRpc.inj hproc
    exact ⟨by decide, by decide, by decide⟩

end DistributedSystems.Lab
