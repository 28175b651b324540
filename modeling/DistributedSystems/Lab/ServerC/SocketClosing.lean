import DistributedSystems.Lab.ServerC.RpcThreads
import DistributedSystems.Lab.ServerC.ThreadEnds

/-!
# Who closes the socket (`serverc/server.c`)

The thread of a connection closes its socket in `process_request` after a handler that returns. The
two listings end the thread themselves: those of `PeerToPeer.c` close the socket first, but not when
a field cannot be read, and those of `PeerToPeerRPC.c` never do. Nor is it closed when the process
ends at a `closedir` of a variable that nothing has been stored to (`closedOnce_iff`).
-/

namespace DistributedSystems.Lab.Traced

open Fs Support

/-! ## The rule -/

/-- A call on the socket other than `close`. CONNECT asks the socket for its address. -/
def Call.onSocket : Call → Bool
  | .readLine _ => true
  | .getSocketAddress => true
  | .send _ => true
  | .write _ => true
  | .change (.connect _ _) => true
  | _ => false

/-- Whether the socket is open: only then may it be used or closed. -/
def socket : Monitor Call.Answer Bool
  | isOpen, ⟨.close, _⟩ => if isOpen then some false else none
  | isOpen, ⟨a, _⟩ => if a.onSocket && !isOpen then none else some isOpen

variable (env : Env) (w : World)

/-- A thread all of whose calls return closes its socket once, and does not use it afterwards. -/
def Closes (thread : Part Unit) : Prop := socket.Leads (exec env) thread w true false

instance (thread : Part Unit) : Decidable (Closes env w thread) :=
  inferInstanceAs (Decidable (socket.watch true (thread.trace (exec env) w) = some false))

/-- However the thread ends, it has closed its socket once and not used it afterwards. -/
def ClosedOnce (thread : Part Unit) : Prop :=
  ∀ calls after, Finishes env w thread calls after → socket.watch true calls = some false

variable {env w}

theorem socket_keeps (a : Call) (h : a.Keeps) (x : a.Answer) : socket true ⟨a, x⟩ = some true := by
  cases a with
  | close => exact h.elim
  | _ => simp [socket]

/-- A part without a `close` leaves an open socket open. -/
theorem leads_of_keeps {ρ : Type} {part : Part ρ} (h : part.Always fun a _ => a.Keeps) :
    socket.Leads (exec env) part w true true :=
  Monitor.leads_of_always socket_keeps h

/-- Calls that keep the socket leave it open. -/
theorem watch_of_keeps {calls : List (Event Call.Answer)} (h : ∀ e ∈ calls, e.1.Keeps) :
    socket.watch true calls = some true := by
  induction calls with
  | nil => rfl
  | cons e calls ih =>
    obtain ⟨he, hcalls⟩ := List.forall_mem_cons.1 h
    rw [Monitor.watch_cons, socket_keeps e.1 he e.2]
    exact ih hcalls

theorem leads_closeSocket : socket.Leads (exec env) closeSocket w true false :=
  .call rfl (Monitor.leads_done ())

/-! ## Handlers that return -/

/-- A handler of the front end makes one call of the daemon and returns. -/
theorem leavesOpen_callProcedure (procedure : Procedure) (failed : Int) :
    LeavesOpen (callProcedure procedure failed) := by
  refine .call trivial fun ret => ?_
  unfold callProcedure.returned
  split
  · exact leavesOpen_returnStatus failed
  · exact .call trivial leavesOpen_returnStatus

/-- After a handler that leaves the socket open, the thread closes it. -/
theorem LeavesOpen.closes {handler : Handler} (h : LeavesOpen handler) :
    Closes env w (handler.bind replyStatus) := by
  refine Monitor.Leads.bind (leads_of_keeps (h.neutral.imp fun _ _ ha => ha.keeps)) ?_
  have hsome : (handler.run (exec env) w).1.isSome := h.returns.run w
  obtain ⟨output, houtput⟩ := Option.isSome_iff_exists.1 hsome
  rw [houtput]
  by_cases hself : output ≠ selfReply
  · rw [replyStatus, if_pos hself]
    exact .call rfl leads_closeSocket
  · rw [replyStatus, if_neg hself]
    exact leads_closeSocket

section Handlers

variable (v : Variables)

theorem leavesOpen_registerUserRpc : LeavesOpen (registerUserRpc v) :=
  leavesOpen_readField fun _ => leavesOpen_callProcedure _ _

theorem leavesOpen_unregisterUserRpc : LeavesOpen (unregisterUserRpc v) :=
  leavesOpen_readField fun _ => leavesOpen_callProcedure _ _

theorem leavesOpen_connectUserRpc : LeavesOpen (connectUserRpc v) := by
  refine leavesOpen_readField fun _ => leavesOpen_readField fun _ => .call trivial fun address => ?_
  cases address with
  | none => exact leavesOpen_returnStatus 3
  | some clientAddress => exact leavesOpen_callProcedure _ _

theorem leavesOpen_disconnectUserRpc : LeavesOpen (disconnectUserRpc v) :=
  leavesOpen_readField fun _ => leavesOpen_callProcedure _ _

theorem leavesOpen_publishFileRpc : LeavesOpen (publishFileRpc v) :=
  leavesOpen_readField fun _ => leavesOpen_readField fun _ => leavesOpen_readField fun _ =>
    leavesOpen_callProcedure _ _

theorem leavesOpen_deleteFileRpc : LeavesOpen (deleteFileRpc v) :=
  leavesOpen_readField fun _ => leavesOpen_readField fun _ => leavesOpen_callProcedure _ _

end Handlers

/-! ## Listings -/

/-- The loop of LIST_USERS sends on an open socket. -/
theorem leads_sendFields (fields : List Bytes) :
    socket.Leads (exec env) (sendFields fields) w true true :=
  leads_of_keeps (always_sendFields (fun _ => trivial) _)

theorem leads_copied (users : Option (List UserServerData)) :
    socket.Leads (exec env) (listUsers.copied users) w true false := by
  cases users with
  | none => exact .call rfl leads_closeSocket
  | some users =>
    refine .call rfl ?_
    split
    · exact leads_closeSocket
    · refine .call rfl (.call rfl ?_)
      split
      · exact leads_closeSocket
      · exact .bind (leads_sendFields _) leads_closeSocket

/-- The last part of LIST_CONTENT closes its directory, and then the socket. -/
theorem closes_finish (directory : Option Nat) :
    socket.Leads (exec env) (listContent.finish directory) w true false :=
  .call rfl leads_closeSocket

/-- A listing that has been counted is sent on an open socket. -/
theorem closes_counted (directory : Directory) :
    socket.Leads (exec env) (listContent.counted directory) w true false := by
  refine .call rfl (.call rfl ?_)
  split
  · exact closes_finish _
  · refine .call rfl ?_
    split
    · exact closes_finish _
    · exact .bind (leads_of_keeps (always_sendEntries (fun _ => trivial) (fun _ => trivial) _ _))
        (closes_finish _)

/-- Whatever a LIST_CONTENT finds, it closes the socket after its reply. -/
theorem closes_checked (v : Variables) (userName : Bytes) (registered : Int) :
    socket.Leads (exec env) (listContent.checked v userName registered) w true false := by
  unfold listContent.checked
  split
  · refine .call rfl ?_
    cases (exec env (.opendir (userDirPath userName)) w).1 with
    | none => exact .call rfl (.call rfl (closes_finish _))
    | some directory =>
      exact .bind (leads_of_keeps (always_countEntries (fun _ => trivial) _ _)) (closes_counted _)
  · exact .call rfl (closes_finish _)

/-- A listing ends the thread as it leaves the socket. -/
theorem exits_closes_iff {part : Part Unit} :
    Closes env w ((exits part).bind replyStatus) ↔ Closes env w part := by
  unfold Closes Monitor.Leads
  rw [trace_exits]

/-- Without a `close` the socket stays open. -/
theorem not_closes_of_keeps {part : Part Unit} (h : part.Always fun a _ => a.Keeps) :
    ¬ Closes env w part := by
  intro hclosed
  cases hclosed.unique (leads_of_keeps h)

theorem not_closes_of_neutral {part : Part Unit} (h : part.Always fun a _ => a.Neutral) :
    ¬ Closes env w part :=
  not_closes_of_keeps (h.imp fun _ _ ha => ha.keeps)

/-- LIST_USERS closes the socket unless the user name cannot be read. -/
theorem listUsers_closes_iff (locals : Locals) :
    Closes env w (listUsers locals) ↔ receive locals.userName w.input ≠ none := by
  unfold Closes listUsers
  rw [Monitor.leads_call_iff rfl]
  cases huser : receive locals.userName w.input with
  | none =>
    obtain ⟨rest, hrest⟩ := exec_readLine_none env huser
    rw [hrest]
    exact iff_of_false (not_closes_of_keeps (always_refuse (fun _ => trivial) _)) (by simp)
  | some r =>
    rw [exec_readLine_some env huser]
    exact iff_of_true (.call rfl (leads_copied _)) (by simp)

/-- Both fields of LIST_CONTENT can be read. -/
def ReadsBoth (locals : Locals) (input : List ReadOutcome) : Prop :=
  ∃ userop rest, receive locals.useropName input = some (userop, rest) ∧
    receive locals.userName rest ≠ none

/-- LIST_CONTENT closes the socket unless one of its two names cannot be read. -/
theorem listContent_closes_iff (v : Variables) :
    Closes env w (listContent v) ↔ ReadsBoth v.toLocals w.input := by
  unfold Closes ReadsBoth listContent
  rw [Monitor.leads_call_iff rfl]
  cases huserop : receive v.useropName w.input with
  | none =>
    obtain ⟨rest, hrest⟩ := exec_readLine_none env huserop
    rw [hrest]
    exact iff_of_false (not_closes_of_keeps (always_refuse (fun _ => trivial) _)) (by simp)
  | some r =>
    obtain ⟨userop, rest⟩ := r
    rw [exec_readLine_some env huserop]
    dsimp only
    rw [Monitor.leads_call_iff rfl]
    cases huser : receive v.userName rest with
    | none =>
      obtain ⟨rest', hrest'⟩ := exec_readLine_none env (w := { w with input := rest }) huser
      rw [hrest']
      refine iff_of_false (not_closes_of_keeps (always_refuse (fun _ => trivial) _)) ?_
      rintro ⟨_, _, huserop', huser'⟩
      cases huserop'
      exact huser' huser
    | some r' =>
      obtain ⟨user, rest'⟩ := r'
      rw [exec_readLine_some env (w := { w with input := rest }) huser]
      refine iff_of_true (.bind (leads_of_keeps ?_) (closes_checked v _ _))
        ⟨userop, rest, rfl, by simp [huser]⟩
      exact always_searchDirectory (fun _ => trivial) (fun _ => trivial) (fun _ => trivial) _ _

/-! ## Listings of the front end -/

theorem neutral_sendUsers (n ii : Nat) : (sendUsers n ii).Always fun a _ => a.Neutral := by
  induction n generalizing ii with
  | zero => trivial
  | succ n ih =>
    refine ⟨trivial, fun x => ?_⟩
    cases x with
    | none => trivial
    | some user => exact Program.always_bind (always_sendFields (fun _ => trivial) _) fun _ => ih _

theorem neutral_usersListing : listUsersRpc.listing.Always fun a _ => a.Neutral := by
  refine ⟨trivial, fun x => ?_⟩
  cases x with
  | none => trivial
  | some _ =>
    refine ⟨trivial, fun numberUsers => ⟨trivial, fun y => ?_⟩⟩
    cases y with
    | none => trivial
    | some _ => exact neutral_sendUsers _ _

/-- The front end's LIST_USERS calls no `close`. -/
theorem neutral_listUsersRpc (locals : Locals) :
    (listUsersRpc locals).Always fun a _ => a.Neutral := by
  refine ⟨trivial, fun userName => ?_⟩
  cases userName with
  | none => exact always_refuse (fun _ => trivial) _
  | some _ =>
    refine ⟨trivial, fun _ => ⟨trivial, fun first => ?_⟩⟩
    cases first with
    | none => trivial
    | some first =>
      rw [listUsersRpc.checked]
      split
      · exact always_refuse (fun _ => trivial) _
      · exact neutral_usersListing

theorem neutral_sendTitles (n ii : Nat) : (sendTitles n ii).Always fun a _ => a.Neutral := by
  induction n generalizing ii with
  | zero => trivial
  | succ n ih =>
    refine ⟨trivial, fun x => ?_⟩
    cases x with
    | none => trivial
    | some title => exact Program.always_bind (always_sendFields (fun _ => trivial) _) fun _ => ih _

theorem neutral_contentListing : listContentRpc.listing.Always fun a _ => a.Neutral := by
  refine ⟨trivial, fun x => ?_⟩
  cases x with
  | none => trivial
  | some _ =>
    refine ⟨trivial, fun numberFiles => ⟨trivial, fun y => ?_⟩⟩
    cases y with
    | none => trivial
    | some _ => exact neutral_sendTitles _ _

theorem neutral_sized (titleListLen : Nat) :
    (listContentRpc.sized titleListLen).Always fun a _ => a.Neutral := by
  unfold listContentRpc.sized
  split
  · exact neutral_contentListing
  · refine ⟨trivial, fun first => ?_⟩
    cases first with
    | none => trivial
    | some first =>
      rw [listContentRpc.checked]
      split
      · exact always_refuse (fun _ => trivial) _
      · split
        · exact always_refuse (fun _ => trivial) _
        · exact neutral_contentListing

/-- The front end's LIST_CONTENT calls no `close`. -/
theorem neutral_listContentRpc (locals : Locals) :
    (listContentRpc locals).Always fun a _ => a.Neutral := by
  refine ⟨trivial, fun useropName => ?_⟩
  cases useropName with
  | none => exact always_refuse (fun _ => trivial) _
  | some _ =>
    refine ⟨trivial, fun userName => ?_⟩
    cases userName with
    | none => exact always_refuse (fun _ => trivial) _
    | some _ => exact ⟨trivial, fun _ => ⟨trivial, fun titleListLen => neutral_sized _⟩⟩

/-! ## Requests -/

section Selectors

variable (v : Variables) {command : Bytes} (h : ¬ IsListing command)

include h

theorem leavesOpen_commandSelectorRpc : LeavesOpen (commandSelectorRpc v command) := by
  obtain ⟨hlistUsers, hlistContent⟩ := not_or.1 h
  unfold commandSelectorRpc
  rw [if_neg hlistUsers, if_neg hlistContent]
  refine .ite (leavesOpen_registerUserRpc v) (.ite (leavesOpen_unregisterUserRpc v) ?_)
  refine .ite (leavesOpen_connectUserRpc v) (.ite (leavesOpen_disconnectUserRpc v) ?_)
  refine .ite (leavesOpen_publishFileRpc v) (.ite (leavesOpen_deleteFileRpc v) ?_)
  exact leavesOpen_returnStatus _

end Selectors

/-- The fields of a listing can be read. -/
def FieldsRead (locals : Locals) (command : Bytes) (input : List ReadOutcome) : Prop :=
  (command = Command.listUsersList → receive locals.userName input ≠ none) ∧
    (command = Command.listContentList → ReadsBoth locals input)

/-- The other six operations leave the socket to `process_request`, which closes it. -/
theorem commandSelector_closes_iff (v : Variables) (command : Bytes) :
    Closes env w ((commandSelector v command).bind replyStatus) ↔
      FieldsRead v.toLocals command w.input := by
  unfold FieldsRead
  by_cases hlistUsers : command = Command.listUsersList
  · subst hlistUsers
    have hcontent : Command.listUsersList ≠ Command.listContentList := by decide
    rw [show commandSelector v Command.listUsersList = exits (listUsers v.toLocals) from rfl,
      exits_closes_iff, listUsers_closes_iff]
    simp [hcontent]
  · by_cases hlistContent : command = Command.listContentList
    · subst hlistContent
      rw [show commandSelector v Command.listContentList = exits (listContent v) from rfl,
        exits_closes_iff, listContent_closes_iff]
      simp [hlistUsers]
    · refine iff_of_true (leavesOpen_commandSelector v ?_).closes (by simp [*])
      rintro (h | h)
      · exact hlistUsers h
      · exact hlistContent h

/-- In the front end, what leaves the socket to `process_request` is what is no listing. -/
theorem commandSelectorRpc_closes_iff (v : Variables) (command : Bytes) :
    Closes env w ((commandSelectorRpc v command).bind replyStatus) ↔ ¬ IsListing command := by
  by_cases h : IsListing command
  · refine iff_of_false ?_ (not_not.2 h)
    rcases h with rfl | rfl
    · rw [show commandSelectorRpc v Command.listUsersList = exits (listUsersRpc v.toLocals) from
        rfl, exits_closes_iff]
      exact not_closes_of_neutral (neutral_listUsersRpc _)
    · rw [show commandSelectorRpc v Command.listContentList = exits (listContentRpc v.toLocals) from
        rfl, exits_closes_iff]
      exact not_closes_of_neutral (neutral_listContentRpc _)
  · exact iff_of_true (leavesOpen_commandSelectorRpc v h).closes h

/-- What follows the command decides, and a command that cannot be read is followed by `close`. -/
theorem selecting_closes_iff (v : Variables) (selector : Bytes → Handler)
    {P : Bytes → List ReadOutcome → Prop}
    (h : ∀ command w, Closes env w ((selector command).bind replyStatus) ↔ P command w.input) :
    Closes env w (processRequest.selecting v selector) ↔
      ∀ message rest, receive v.message w.input = some (message, rest) → P message.text rest := by
  unfold Closes processRequest.selecting
  rw [Monitor.leads_call_iff rfl]
  cases hmessage : receive v.message w.input with
  | none =>
    obtain ⟨rest, hrest⟩ := exec_readLine_none env hmessage
    rw [hrest]
    exact iff_of_true leads_closeSocket nofun
  | some r =>
    obtain ⟨message, rest⟩ := r
    rw [exec_readLine_some env hmessage]
    refine (h message.text { w with input := rest }).trans ⟨fun hP => ?_, fun hP => hP _ _ rfl⟩
    intro _ _ hmessage'
    cases hmessage'
    exact hP

/-- The front end opens no directory. -/
theorem pointers_commandSelectorRpc (v : Variables) (command : Bytes) :
    pointers.Leads (exec env) ((commandSelectorRpc v command).bind replyStatus) w [] [] := by
  by_cases h : IsListing command
  · unfold Monitor.Leads
    rcases h with rfl | rfl
    · rw [show commandSelectorRpc v Command.listUsersList = exits (listUsersRpc v.toLocals) from
        rfl, trace_exits]
      exact pointers_elsewhere ((neutral_listUsersRpc _).imp fun _ _ ha => ha.elsewhere)
    · rw [show commandSelectorRpc v Command.listContentList = exits (listContentRpc v.toLocals) from
        rfl, trace_exits]
      exact pointers_elsewhere ((neutral_listContentRpc _).imp fun _ _ ha => ha.elsewhere)
  · exact pointers_leavesOpen (leavesOpen_commandSelectorRpc v h)

/-- A thread that closes no pointer without a directory ends in one way. -/
theorem closedOnce_iff_closes {thread : Part Unit}
    (h : ¬ pointers.Breaks (exec env) thread w []) :
    ClosedOnce env w thread ↔ Closes env w thread := by
  unfold ClosedOnce
  rw [forall_finishes_iff]
  exact and_iff_left fun hbreaks => absurd hbreaks h

/-- **When a thread closes its socket once**, in each of the two builds. -/
theorem closedOnce_iff (env : Env) (v : Variables) (w : World) :
    (ClosedOnce env w (processRequest v) ↔
      ∀ message rest, receive v.message w.input = some (message, rest) →
        FieldsRead v.toLocals message.text rest ∧
          (message.text = Command.listContentList →
            Misses env.calls w.store.tree v.toLocals rest → v.directory = none)) ∧
    (ClosedOnce env w (processRequestRpc v) ↔
      ∀ message rest, receive v.message w.input = some (message, rest) →
        ¬ IsListing message.text) := by
  constructor
  · have hreturns : Closes env w (processRequest v) ↔
        ∀ message rest, receive v.message w.input = some (message, rest) →
          FieldsRead v.toLocals message.text rest :=
      selecting_closes_iff v (commandSelector v) fun command _ =>
        commandSelector_closes_iff v command
    by_cases hstrays : Strays env.calls w.store.tree v w.input
    · obtain ⟨hbreaks, hkeeps⟩ := keeps_of_strays hstrays
      obtain ⟨hdirectory, message, rest, hmessage, hcommand, hmisses⟩ := hstrays
      refine iff_of_false (fun hclosed => ?_) fun h => ?_
      · have hopen := watch_of_keeps hkeeps
        rw [hclosed _ _ (.aborts hbreaks)] at hopen
        cases hopen
      · exact hdirectory ((h message rest hmessage).2 hcommand hmisses)
    · have hkept : ¬ pointers.Breaks (exec env) (processRequest v) w [] := by
        rw [processRequest_breaks_iff]
        exact hstrays
      refine (closedOnce_iff_closes hkept).trans (hreturns.trans ?_)
      refine forall_congr' fun message => forall_congr' fun rest => forall_congr' fun hmessage => ?_
      refine (and_iff_left fun hcommand hmisses => ?_).symm
      by_contra hdirectory
      exact hstrays ⟨hdirectory, message, rest, hmessage, hcommand, hmisses⟩
  · have hkept : pointers.Leads (exec env) (processRequestRpc v) w [] [] :=
      pointers_selecting fun message rest _ => pointers_commandSelectorRpc v message.text
    refine (closedOnce_iff_closes fun hbreaks => hbreaks.not_leads hkept).trans ?_
    exact selecting_closes_iff (P := fun command _ => ¬ IsListing command) v _
      fun command _ => commandSelectorRpc_closes_iff v command

/-- A connection that is reset before the user name, a name without an entry while `directory` holds
what it happened to, and a listing of the front end. -/
theorem sockets_left_open :
    ¬ ClosedOnce posixEnv { aliceBobWorld [] (fun _ => .whole) with
          input := received (cstring "LIST_USERS\x00") ++ [.error] } (processRequest .zeros) ∧
      ¬ ClosedOnce posixEnv (aliceBobWorld (cstring "LIST_CONTENT\x00alice\x00carol\x00")
          fun _ => .whole) (processRequest { Variables.zeros with directory := some 7 }) ∧
      ¬ ClosedOnce posixEnv (aliceBobWorld (cstring "LIST_USERS\x00alice\x00") fun _ => .whole)
          (processRequestRpc .zeros) := by
  refine ⟨fun h => ?_, fun h => ?_, fun h => ?_⟩
  · exact absurd (h _ _ .returns) (by decide)
  · exact absurd (h _ _ (.aborts (by decide))) (by decide)
  · exact absurd (h _ _ .returns) (by decide)

end DistributedSystems.Lab.Traced
