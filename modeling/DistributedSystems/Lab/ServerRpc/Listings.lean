import DistributedSystems.Lab.ServerC.PeerToPeerRpc

/-!
# Listings of the two servers

The daemon has only a list to answer with, so it makes a failure a list of one element whose name is
a number, and the front end looks for that number in the first name it gets. The names are the
users' to choose. `listUsersRpc_agrees_iff` and `listContentRpc_agrees_iff` say for which listings
the front end sends what the in-process server does. The handler of LIST_USERS reads the first name
before it knows that there is one.
-/

namespace DistributedSystems.Lab

open Fs

@[simp] theorem elements_of {α : Type} (list : List α) :
    (ReceivedList.of list).elements = some list := by
  unfold ReceivedList.elements ReceivedList.of
  rw [if_pos (Nat.le_refl _), List.take_length]

/-- A status of failure is no beginning of a listing. -/
theorem htonl_ne_listing {status : Int} (h : status = 3 ∨ status = 4) (listing : Bytes) :
    htonl status ≠ htonl 0 ++ listing := by
  intro heq
  have hlast := congrArg (fun reply => reply[3]?) heq
  rcases h with rfl | rfl <;> cases hlast

/-! ## Users -/

/-- The in-process server sends a listing of all users. -/
theorem listUsers_act_eq (s : Store) : listUsers.act true s =
    htonl 0 ++ (htonl s.connected.length ++ s.connected.flatMap sendUser) := by
  unfold listUsers.act listGetSize getElements
  rw [if_pos rfl, List.take_length, List.append_assoc]

/-- What the front end sends for the users of the daemon. -/
theorem listUsersRpc_delivering (c : SysCalls) (userName : Bytes) (s : Store) :
    listUsersRpc.act (.delivering c true) userName s =
      match s.connected.head? with
      | none => none
      | some first =>
        if atoi first.name = -1 then some (htonl 3) else some (listUsers.act true s) := by
  have hlist : ((ListStubs.delivering c true).listUsers1 userName s).2 =
      .of (s.connected.map fun user => ⟨user.name, user.port, user.ipAddress⟩) := rfl
  have hlen : ∀ list : List UserServer, (ReceivedList.of list).len = list.length := fun _ => rfl
  have hval : ∀ list : List UserServer, (ReceivedList.of list).val = list := fun _ => rfl
  unfold listUsersRpc.act
  rw [hlist, listUsers_act_eq]
  simp only [hval, hlen, elements_of, List.head?_map, List.length_map, List.flatMap_map,
    Option.map_some]
  cases s.connected.head? with
  | none => rfl
  | some first =>
    simp only [Option.map_some, List.append_assoc]
    rfl

/-- **LIST_USERS agrees in both deployments** exactly for a list that is not empty and whose first
name is not taken for a failure. -/
theorem listUsersRpc_agrees_iff (c : SysCalls) (userName : Bytes) (s : Store) :
    listUsersRpc.act (.delivering c true) userName s = some (listUsers.act true s) ↔
      ∃ first ∈ s.connected.head?, atoi first.name ≠ -1 := by
  rw [listUsersRpc_delivering]
  cases s.connected.head? with
  | none => simp
  | some first =>
    by_cases hfirst : atoi first.name = -1
    · have hne : htonl 3 ≠ listUsers.act true s := by
        rw [listUsers_act_eq]
        exact htonl_ne_listing (Or.inl rfl) _
      simp [hfirst, hne]
    · simp [hfirst]

/-- With nobody connected, the front end reads the first of no users. -/
theorem no_users_read : let s : Store := ⟨.empty, []⟩
    listUsersRpc.act (.delivering (posix []) true) (cstring "alice") s = none ∧
      listUsers.act true s = [0, 0, 0, 0, 0, 0, 0, 0] := by decide

/-! ## Content -/

/-- The reply that lists these names. -/
def contentReply (names : List Bytes) : Bytes :=
  htonl 0 ++ (htonl names.length ++ names.flatMap sendField)

/-- The in-process server sends a listing of a user's directory. -/
theorem listContent_act_of_opendir {c : SysCalls} {userName : Bytes} {s : Store}
    {entries : List Bytes} (hregistered : isusrRegistered c s.tree userName ≠ 0)
    (hopen : c.opendir s.tree (userDirPath userName) = some entries) :
    listContent.act c userName s = contentReply (fileNames entries) := by
  unfold listContent.act
  rw [if_pos hregistered, hopen]
  exact List.append_assoc _ _ _

/-- What the front end makes of a list of names. -/
theorem listContentRpc_of_titles {stubs : ListStubs} {useropName userName : Bytes} {s : Store}
    {names : List Bytes}
    (h : (stubs.listContent1 useropName userName s).2 = .of (names.map Title.mk)) :
    listContentRpc.act stubs useropName userName s =
      match names.head? with
      | none => some (contentReply names)
      | some first =>
        if atoi first = -1 then some (htonl 4)
        else if atoi first = -2 then some (htonl 3)
        else some (contentReply names) := by
  have hsend : sendTitles (.of (names.map Title.mk)) = some (contentReply names) := by
    unfold sendTitles contentReply
    rw [elements_of, Option.map_some, List.flatMap_map, List.append_assoc]
    simp only [ReceivedList.of, List.length_map]
  unfold listContentRpc.act
  simp only [h, hsend]
  cases names <;> rfl

/-- The front end lists the names as long as the first one stands for no failure. -/
theorem listContentRpc_eq_contentReply_iff {stubs : ListStubs} {useropName userName : Bytes}
    {s : Store} {names : List Bytes}
    (h : (stubs.listContent1 useropName userName s).2 = .of (names.map Title.mk)) :
    listContentRpc.act stubs useropName userName s = some (contentReply names) ↔
      ∀ first ∈ names.head?, atoi first ≠ -1 ∧ atoi first ≠ -2 := by
  rw [listContentRpc_of_titles h]
  have hne : ∀ status, status = 3 ∨ status = 4 → htonl status ≠ contentReply names := by
    intro status hstatus
    exact htonl_ne_listing hstatus _
  cases names.head? with
  | none => simp
  | some first =>
    by_cases h1 : atoi first = -1
    · simp [h1, hne 4 (Or.inr rfl)]
    · by_cases h2 : atoi first = -2
      · simp [h2, hne 3 (Or.inl rfl)]
      · simp [h1, h2]

/-- The listing that is taken for a failure: the directory of the user is read, and the first name
in it is a number that stands for one. -/
def TakenForFailure (c : SysCalls) (userName : Bytes) (t : Tree) : Prop :=
  isusrRegistered c t userName ≠ 0 ∧
    ∃ entries ∈ c.opendir t (userDirPath userName), ∃ first ∈ (fileNames entries).head?,
      atoi first = -1 ∨ atoi first = -2

/-- **LIST_CONTENT agrees in both deployments** exactly where the listing is not taken for a
failure. -/
theorem listContentRpc_agrees_iff (c : SysCalls) (allocated : Bool) (useropName userName : Bytes)
    (s : Store) :
    listContentRpc.act (.delivering c allocated) useropName userName s =
        some (listContent.act c userName s) ↔
      ¬ TakenForFailure c userName s.tree := by
  have hlist : ((ListStubs.delivering c allocated).listContent1 useropName userName s).2 =
      .of (listContent1Svc c userName s) := rfl
  unfold TakenForFailure
  by_cases hregistered : isusrRegistered c s.tree userName = 0
  · have hsvc : listContent1Svc c userName s = [cstring "-2"].map Title.mk := by
      unfold listContent1Svc
      rw [if_pos hregistered]
      rfl
    have hact : listContent.act c userName s = htonl 3 := by
      unfold listContent.act
      rw [if_neg (not_not.2 hregistered)]
    rw [hsvc] at hlist
    rw [listContentRpc_of_titles hlist, hact]
    exact iff_of_true rfl fun h => h.1 hregistered
  · cases hopen : c.opendir s.tree (userDirPath userName) with
    | none =>
      have hsvc : listContent1Svc c userName s = [cstring "-1"].map Title.mk := by
        unfold listContent1Svc
        rw [if_neg hregistered, hopen]
        rfl
      have hact : listContent.act c userName s = htonl 4 := by
        unfold listContent.act
        rw [if_pos hregistered, hopen]
      rw [hsvc] at hlist
      rw [listContentRpc_of_titles hlist, hact]
      exact iff_of_true rfl fun ⟨_, entries, hmem, _⟩ => by cases hmem
    | some entries =>
      have hsvc : listContent1Svc c userName s = (fileNames entries).map Title.mk := by
        unfold listContent1Svc
        rw [if_neg hregistered, hopen]
      rw [hsvc] at hlist
      rw [listContent_act_of_opendir hregistered hopen, listContentRpc_eq_contentReply_iff hlist]
      constructor
      · rintro hfirst ⟨-, entries', hmem, first, hhead, hnumber⟩
        obtain rfl := Option.some.inj hmem
        obtain ⟨h1, h2⟩ := hfirst first hhead
        exact hnumber.elim h1 h2
      · intro h first hhead
        exact not_or.1 fun hnumber => h ⟨hregistered, entries, rfl, first, hhead, hnumber⟩

/-- Alice is connected and has published one file, under a number for a name. -/
def numberTree : Tree :=
  let t := (registerUser.act (posix []) (cstring "alice") (initP2pService (posix []) .empty)).2.tree
  let s : Store := ⟨t, [⟨cstring "alice", cstring "4001", cstring "::1"⟩]⟩
  (publishFile.act (posix []) (.of (cstring "alice")) (.of (cstring "-1"))
    (.of (cstring "minus one")) s).2.tree

/-- Her listing is taken for a failure. -/
theorem number_taken_for_failure : let s : Store := ⟨numberTree, []⟩
    listContentRpc.act (.delivering (posix []) true) (cstring "bob") (cstring "alice") s =
        some [0, 0, 0, 4] ∧
      listContent.act (posix []) (cstring "alice") s =
        [0, 0, 0, 0, 0, 0, 0, 1] ++ sendField (cstring "-1") := by decide

end DistributedSystems.Lab
