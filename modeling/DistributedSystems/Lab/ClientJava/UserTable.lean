import DistributedSystems.Lab.ClientJava.Shell

/-!
# The table of users (`list_users` and `get_file` of `clientjava/client.java`)

LIST_USERS puts every user of the reply into `users_data`, and no command takes one out. After any
run of the shell the table therefore has the users of all listings of the run, and GET_FILE refuses
the names that none of them had (`listed_of_run`). A user of an earlier listing is not refused when
the last listing does not have it any more.
-/

namespace DistributedSystems.Lab

open Fs Support CommandLine

/-! ## Tables -/

/-- Users put into a table, in turn. -/
def putUsers (table : JString → Option UsersData) (users : List ListedUser) :
    JString → Option UsersData :=
  users.foldl (fun table user =>
    Function.update table (Utf16.encode user.name) (some ⟨user.ip, user.port⟩)) table

def namesOf (users : List ListedUser) : List JString := users.map fun user => Utf16.encode user.name

theorem putUsers_append (table : JString → Option UsersData) (users users' : List ListedUser) :
    putUsers table (users ++ users') = putUsers (putUsers table users) users' := by
  unfold putUsers
  rw [List.foldl_append]

/-- Entries are added and never taken away. -/
theorem isSome_putUsers_iff (table : JString → Option UsersData) (users : List ListedUser)
    (name : JString) :
    (putUsers table users name).isSome ↔ (table name).isSome ∨ name ∈ namesOf users := by
  induction users generalizing table with
  | nil => simp [putUsers, namesOf]
  | cons user users ih =>
    have hcons : putUsers table (user :: users) =
        putUsers (Function.update table (Utf16.encode user.name) (some ⟨user.ip, user.port⟩))
          users := rfl
    rw [hcons, ih]
    unfold namesOf
    rw [List.map_cons, List.mem_cons]
    by_cases hname : name = Utf16.encode user.name
    · subst hname
      simp
    · rw [Function.update_of_ne hname]
      simp [hname]

/-! ## Listings -/

/-- A reply that does not end before three lines for each user that it announces. -/
def Reply.WellFormed (reply : Reply) : Prop :=
  reply.reset = false ∧ ∀ numberUsers text, reply.listing? = some (numberUsers, text) →
    3 * numberUsers.toNat ≤ (TextLines.lines text).length

/-- The users that a reply has after LIST_USERS OK. -/
def Reply.users? (reply : Reply) : Option (List ListedUser) :=
  match Client.listUsers reply.bytes with
  | .ok users _ => some users
  | _ => none

namespace ClientFields

/-- The reply to a LIST_USERS of the client. -/
def listReply? (network : Network) (c : ClientFields) : Option Reply :=
  if c.connected = false then none
  else
    match request .listUsers [c.connectedUserName] with
    | .error _ => none
    | .ok bytes => network.server.map (· bytes)

end ClientFields

namespace Shell

/-- The reply that a turn receives to a LIST_USERS. -/
def listReply? (toUpperCase : JString → JString) (s : Shell) : Turn → Option Reply
  | .line (some input) network =>
    if interpret toUpperCase input = .ok .listUsers then s.fields.listReply? network else none
  | _ => none

/-- The users that a turn prints after LIST_USERS OK. -/
def listing? (toUpperCase : JString → JString) (s : Shell) (turn : Turn) :
    Option (List ListedUser) :=
  (s.listReply? toUpperCase turn).bind Reply.users?

/-- The listings of a run, in order. -/
def listings (toUpperCase : JString → JString) (steps : List (Shell × Turn)) :
    List (List ListedUser) :=
  steps.filterMap fun x => x.1.listing? toUpperCase x.2

/-- A reply to a LIST_USERS is well-formed. -/
def RepliesWell (toUpperCase : JString → JString) (s : Shell) (turn : Turn) : Prop :=
  ∀ reply, s.listReply? toUpperCase turn = some reply → reply.WellFormed

end Shell

/-! ## One reply -/

open TextLines (lines) in
/-- Three lines for each user are enough. -/
theorem readUsers_isSome {n : Nat} {text : List Char} (h : 3 * n ≤ (lines text).length) :
    ∃ users rest, Client.readUsers n text = some (users, rest) := by
  have hfield : ∀ (text : List Char) (k : Nat), k + 1 ≤ (lines text).length →
      ∃ field rest, Client.readField text = some (field, rest) ∧ k ≤ (lines rest).length := by
    intro text k hk
    cases text with
    | nil =>
      rw [TextLines.lines_nil, List.length_nil] at hk
      omega
    | cons c cs =>
      rw [TextLines.lines_cons, List.length_cons] at hk
      exact ⟨_, _, rfl, by omega⟩
  induction n generalizing text with
  | zero => exact ⟨[], text, rfl⟩
  | succ n ih =>
    obtain ⟨name, text₁, h₁, hlen₁⟩ := hfield text (3 * n + 2) (by omega)
    obtain ⟨ip, text₂, h₂, hlen₂⟩ := hfield text₁ (3 * n + 1) hlen₁
    obtain ⟨port, text₃, h₃, hlen₃⟩ := hfield text₂ (3 * n) hlen₂
    obtain ⟨users, rest, hrest⟩ := ih hlen₃
    refine ⟨⟨name, ip, port⟩ :: users, rest, ?_⟩
    simp only [Client.readUsers, Option.bind_eq_bind, h₁, h₂, h₃, hrest, Option.bind_some]
    rfl

namespace ClientFields

variable {network : Network} {c : ClientFields}

theorem usersData_foldl_put (users : List ListedUser) :
    (users.foldl put c).usersData = putUsers c.usersData users := by
  induction users generalizing c with
  | nil => rfl
  | cons user users ih => exact ih

/-- A well-formed reply puts its users in the table, if it has any. -/
theorem usersData_listUsersReceived {reply : Reply} (h : reply.WellFormed) :
    (c.listUsersReceived (some reply)).2.usersData =
      putUsers c.usersData (reply.users?.getD []) := by
  obtain ⟨bytes, reset⟩ := reply
  obtain ⟨hreset, hlines⟩ := h
  dsimp only at hreset
  subst hreset
  unfold listUsersReceived Reply.users? Client.listUsers
  dsimp only
  cases houtput : readInt bytes with
  | none => rfl
  | some r =>
    obtain ⟨receiveOutput, rest⟩ := r
    dsimp only
    by_cases h0 : receiveOutput = 0
    · subst h0
      rw [if_pos rfl, if_neg (by decide), if_pos rfl]
      cases hnumber : readInt rest with
      | none => rfl
      | some r =>
        obtain ⟨numberUsers, text⟩ := r
        have hlen := hlines numberUsers (Utf8.decode text) (by
          simp only [Reply.listing?, houtput, hnumber, if_true, Option.map_some])
        obtain ⟨users, more, hread⟩ := readUsers_isSome hlen
        dsimp only
        unfold listed
        rw [hread, receiveUsers_of_readUsers hread]
        exact usersData_foldl_put users
    · rw [if_neg h0, if_neg h0]
      split
      · rename_i h
        split_ifs at h
      · rfl

/-- A listing changes the table by the users of its reply. -/
theorem usersData_listUsers (network : Network) (c : ClientFields) :
    (c.listUsers network).2.usersData =
      match c.listReply? network with
      | none => c.usersData
      | some reply => (c.listUsersReceived (some reply)).2.usersData := by
  unfold listUsers listReply? exchange
  split
  · rfl
  · cases request .listUsers [c.connectedUserName] with
    | error e => rfl
    | ok bytes => cases network.server <;> rfl

/-! ## The other commands -/

/-- An exchange changes the table only by what is done with its reply. -/
theorem usersData_exchange {request : Except Uncaught Bytes} {received : Option Reply → Ended}
    (h : ∀ reply, (received reply).2.usersData = c.usersData) :
    (c.exchange network request received).2.usersData = c.usersData := by
  unfold exchange
  split
  · rfl
  · exact h _

theorem usersData_closeThread (c : ClientFields) : c.closeThread.usersData = c.usersData := by
  unfold closeThread
  split <;> rfl

theorem usersData_connectFinally (c : ClientFields) (receiveOutput : Int) :
    (c.connectFinally receiveOutput).usersData = c.usersData := by
  unfold connectFinally
  split
  · exact usersData_closeThread c
  · rfl

theorem usersData_connectReceived (c : ClientFields) (user : JString) (receiveOutput : Int) :
    (c.connectReceived user receiveOutput).usersData = c.usersData := by
  unfold connectReceived
  split
  · exact usersData_closeThread c
  · rfl

/-- A CONNECT leaves the table as it is. -/
theorem usersData_connect (user : JString) :
    (c.connect network user).2.usersData = c.usersData := by
  unfold connect
  rw [parsed_some]
  dsimp only
  split
  · rfl
  · split
    · unfold connectAnswered
      split
      · exact usersData_connectFinally _ _
      · exact (usersData_connectFinally _ _).trans (usersData_connectReceived _ _ _)
    · exact usersData_connectFinally _ _

theorem usersData_disconnectFinally (c : ClientFields) :
    c.disconnectFinally.2.usersData = c.usersData := by
  unfold disconnectFinally
  split
  · rfl
  · exact usersData_closeThread c

/-- A DISCONNECT leaves the table as it is. -/
theorem usersData_disconnect (user : JString) :
    (c.disconnect network user).2.usersData = c.usersData := by
  unfold disconnect
  split
  · rfl
  · split
    · rfl
    · exact usersData_exchange fun _ => usersData_disconnectFinally c

/-- A GET_FILE reads the table. -/
theorem usersData_getFile (userName remoteFileName localFileName : JString) :
    (c.getFile network userName remoteFileName localFileName).2.usersData = c.usersData := by
  unfold getFile
  split <;> rfl

theorem usersData_delete (fileName : JString) :
    (c.delete network fileName).2.usersData = c.usersData := by
  unfold delete
  split
  · rfl
  · exact usersData_exchange fun _ => rfl

theorem usersData_listContent (userName : JString) :
    (c.listContent network userName).2.usersData = c.usersData := by
  unfold listContent
  split
  · rfl
  · exact usersData_exchange fun _ => rfl

/-- Every other command leaves the table alone. -/
theorem usersData_perform {command : Command} (h : command ≠ .listUsers) :
    (c.perform network command).2.usersData = c.usersData := by
  cases command with
  | listUsers => exact absurd rfl h
  | connect user => exact usersData_connect user
  | disconnect user => exact usersData_disconnect user
  | getFile userName remoteFileName localFileName => exact usersData_getFile _ _ _
  | register user => exact usersData_exchange fun _ => rfl
  | unregister user => exact usersData_exchange fun _ => rfl
  | publish user fileName description => exact usersData_exchange fun _ => rfl
  | delete fileName => exact usersData_delete fileName
  | listContent userName => exact usersData_listContent userName
  | _ => rfl

end ClientFields

/-! ## Runs -/

namespace Shell

variable {toUpperCase : JString → JString} {s : Shell}

/-- **One turn** puts the users of its listing in the table. -/
theorem usersData_next {turn : Turn} (h : s.RepliesWell toUpperCase turn) :
    (s.next toUpperCase turn).fields.usersData =
      putUsers s.fields.usersData ((s.listing? toUpperCase turn).getD []) := by
  cases turn with
  | finish network =>
    unfold next ClientFields.quit
    dsimp only
    split
    · split <;> rfl
    · rfl
  | line input network =>
    cases input with
    | none => rfl
    | some input =>
      by_cases hlist : interpret toUpperCase input = .ok .listUsers
      · have hreply : s.listReply? toUpperCase (.line (some input) network) =
            s.fields.listReply? network := if_pos hlist
        have heq := ClientFields.usersData_listUsers network s.fields
        unfold RepliesWell at h
        unfold next listing?
        rw [hreply] at h
        rw [hreply]
        dsimp only
        rw [hlist]
        cases hsome : s.fields.listReply? network with
        | none =>
          rw [hsome] at heq
          exact heq
        | some reply =>
          rw [hsome] at heq
          exact heq.trans (ClientFields.usersData_listUsersReceived (h reply hsome))
      · have hreply : s.listReply? toUpperCase (.line (some input) network) = none := if_neg hlist
        unfold next listing?
        rw [hreply]
        dsimp only
        cases hinterpret : interpret toUpperCase input with
        | error e => rfl
        | ok command =>
          refine ClientFields.usersData_perform fun hcommand => hlist ?_
          rw [hinterpret, hcommand]

/-- **The table has what the listings of the run have put in it**, in turn. -/
theorem usersData_of_run {steps : List (Shell × Turn)} (h : Run (Step toUpperCase) start steps s)
    (hreplies : Guarded (RepliesWell toUpperCase) steps) :
    s.fields.usersData = putUsers (fun _ => none) (listings toUpperCase steps).flatten := by
  induction h with
  | nil => rfl
  | @snoc steps s s' turn hrun hs ih =>
    obtain ⟨hreplies, hturn⟩ := guarded_snoc.1 hreplies
    have hlistings : (listings toUpperCase (steps ++ [(s, turn)])).flatten =
        (listings toUpperCase steps).flatten ++ (s.listing? toUpperCase turn).getD [] := by
      unfold listings
      rw [filterMap_snoc, List.flatten_append]
      cases s.listing? toUpperCase turn <;> simp
    rw [← hs.2, usersData_next hturn, ih hreplies, hlistings, putUsers_append]

/-- **After any run the table has exactly the names of all its listings,** and GET_FILE refuses
every other name. -/
theorem listed_of_run {steps : List (Shell × Turn)} (h : Run (Step toUpperCase) start steps s)
    (hreplies : Guarded (RepliesWell toUpperCase) steps) :
    (∀ name, (s.fields.usersData name).isSome ↔
        ∃ users ∈ listings toUpperCase steps, name ∈ namesOf users) ∧
      ∀ name, (∀ users ∈ listings toUpperCase steps, name ∉ namesOf users) →
        ∀ network remoteFileName localFileName,
          s.fields.transfer network name remoteFileName localFileName = .ok .fail := by
  have hnames : ∀ name, (s.fields.usersData name).isSome ↔
      ∃ users ∈ listings toUpperCase steps, name ∈ namesOf users := by
    intro name
    rw [usersData_of_run h hreplies, isSome_putUsers_iff]
    simp [namesOf]
  refine ⟨hnames, fun name hname network remoteFileName localFileName => ?_⟩
  have hnone : s.fields.usersData name = none := by
    cases hdata : s.fields.usersData name with
    | none => rfl
    | some data =>
      obtain ⟨users, husers, hmem⟩ := (hnames name).1 (Option.isSome_of_eq_some hdata)
      exact absurd hmem (hname users husers)
  unfold ClientFields.transfer
  rw [hnone]

/-- A client that is connected and lists the users twice: `b` is there first, and nobody then. -/
def listingB : Turn :=
  .line (some (jstring "LIST_USERS"))
    (replying (writeInt 0 ++ writeInt 1 ++ [98, 10, 97, 10, 112, 10]))

def listingNobody : Turn :=
  .line (some (jstring "LIST_USERS")) (replying (writeInt 0 ++ writeInt 0))

def connecting : Turn := .line (some (jstring "CONNECT alice")) (replying (writeInt 0))

def connected : Shell := start.next upperCase connecting

def listedB : Shell := connected.next upperCase listingB

def twoListings : List (Shell × Turn) :=
  [(start, connecting), (connected, listingB), (listedB, listingNobody)]

theorem run_twoListings :
    Run (Step upperCase) start twoListings (listedB.next upperCase listingNobody) :=
  ((Run.nil.snoc (a := connecting) ⟨rfl, rfl⟩).snoc (a := listingB)
    ⟨show connected.progress = .prompt by decide, rfl⟩).snoc
      ⟨show listedB.progress = .prompt by decide, rfl⟩

/-- A reply without users is well-formed, and so is one with the three lines of a user. -/
theorem wellFormed_nobody : Reply.WellFormed ⟨writeInt 0 ++ writeInt 0, false⟩ := by
  refine ⟨rfl, fun numberUsers text h => ?_⟩
  have hlisting : Reply.listing? ⟨writeInt 0 ++ writeInt 0, false⟩ = some (0, []) := by decide
  obtain ⟨rfl, rfl⟩ := Prod.mk.inj (Option.some.inj (hlisting.symm.trans h))
  exact Nat.zero_le _

theorem wellFormed_b :
    Reply.WellFormed ⟨writeInt 0 ++ writeInt 1 ++ [98, 10, 97, 10, 112, 10], false⟩ := by
  refine ⟨rfl, fun numberUsers text h => ?_⟩
  have hlisting : Reply.listing?
      ⟨writeInt 0 ++ writeInt 1 ++ [98, 10, 97, 10, 112, 10], false⟩ =
        some (1, ['b', '\n', 'a', '\n', 'p', '\n']) := by decide
  obtain ⟨rfl, rfl⟩ := Prod.mk.inj (Option.some.inj (hlisting.symm.trans h))
  have hb : TextLines.cut ['b', '\n', 'a', '\n', 'p', '\n'] =
      (['b'], ['a', '\n', 'p', '\n']) := by decide
  have ha : TextLines.cut ['a', '\n', 'p', '\n'] = (['a'], ['p', '\n']) := by decide
  have hp : TextLines.cut ['p', '\n'] = (['p'], []) := by decide
  rw [TextLines.lines_cons, hb, TextLines.lines_cons, ha, TextLines.lines_cons, hp,
    TextLines.lines_nil]
  decide

theorem repliesWell_twoListings : Guarded (RepliesWell upperCase) twoListings := by
  have hnone : start.listReply? upperCase connecting = none := by rfl
  have hb : connected.listReply? upperCase listingB =
      some ⟨writeInt 0 ++ writeInt 1 ++ [98, 10, 97, 10, 112, 10], false⟩ := by rfl
  have hnobody : listedB.listReply? upperCase listingNobody =
      some ⟨writeInt 0 ++ writeInt 0, false⟩ := by rfl
  refine List.forall_mem_cons.2 ⟨?_, List.forall_mem_cons.2 ⟨?_, List.forall_mem_singleton.2 ?_⟩⟩
  · intro reply h
    cases hnone.symm.trans h
  · intro reply h
    obtain rfl := Option.some.inj (hb.symm.trans h)
    exact wellFormed_b
  · intro reply h
    obtain rfl := Option.some.inj (hnobody.symm.trans h)
    exact wellFormed_nobody

/-- After both listings `b` is in the table and nobody else. -/
theorem b_listed :
    let s := listedB.next upperCase listingNobody
    (∀ name, (s.fields.usersData name).isSome ↔
        ∃ users ∈ listings upperCase twoListings, name ∈ namesOf users) ∧
      ∀ name, (∀ users ∈ listings upperCase twoListings, name ∉ namesOf users) →
        ∀ network remoteFileName localFileName,
          s.fields.transfer network name remoteFileName localFileName = .ok .fail :=
  listed_of_run run_twoListings repliesWell_twoListings

/-- But not in the second listing. -/
theorem b_still_listed :
    ¬ ∀ (steps : List (Shell × Turn)) (s s' : Shell) (turn : Turn) (users : List ListedUser),
      Run (Step upperCase) start (steps ++ [(s, turn)]) s' →
      Guarded (RepliesWell upperCase) (steps ++ [(s, turn)]) →
      s.listing? upperCase turn = some users →
        ∀ name, (s'.fields.usersData name).isSome ↔ name ∈ namesOf users := by
  intro h
  have hnobody : listedB.listing? upperCase listingNobody = some [] := by decide
  have hb := (h [(start, connecting), (connected, listingB)] listedB _ listingNobody []
    run_twoListings repliesWell_twoListings hnobody [98]).1 (by decide)
  cases hb

end Shell

end DistributedSystems.Lab
