import DistributedSystems.Lab.ServerC.DirectoryHandles

/-!
# How a thread ends

`list_content` gives `closedir` a variable that nothing has been stored to when the name it is asked
about has no entry in `./Users`. `exec` has that call return, and what follows it is called; but the
C library may also end the process there, before the socket is closed (`Finishes`). No other call
of a thread is given such a pointer (`processRequest_breaks_iff`).
-/

namespace DistributedSystems.Lab.Traced

open Fs Support

/-- Which directories are open, until `closedir` is given a pointer that is neither NULL nor of one
of them. -/
def pointers : Monitor Call.Answer (List Nat)
  | opened, ⟨.opendir _, some directory⟩ => some (directory.handle :: opened)
  | opened, ⟨.closedir (some handle), _⟩ =>
    if handle ∈ opened then some (opened.erase handle) else none
  | opened, _ => some opened

instance {ρ : Type} (env : Env) (part : Part ρ) (w : World) (opened : List Nat) :
    Decidable (pointers.Breaks (exec env) part w opened) :=
  inferInstanceAs (Decidable (pointers.watch opened (part.trace (exec env) w) = none))

/-- How a thread ends: what it has called, and the world that it leaves, or none when the process
ends with it. -/
inductive Finishes (env : Env) (w : World) (thread : Part Unit) :
    List (Event Call.Answer) → Option World → Prop
  | returns :
    Finishes env w thread (thread.trace (exec env) w) (some (thread.run (exec env) w).2)
  | aborts (h : pointers.Breaks (exec env) thread w []) :
    Finishes env w thread (pointers.upTo [] (thread.trace (exec env) w)) none

variable {env : Env} {w : World} {opened : List Nat}

/-- All ends of a thread: the one at its return, and the one at a stray pointer if it comes to one.
-/
theorem forall_finishes_iff {thread : Part Unit}
    {P : List (Event Call.Answer) → Option World → Prop} :
    (∀ calls after, Finishes env w thread calls after → P calls after) ↔
      P (thread.trace (exec env) w) (some (thread.run (exec env) w).2) ∧
        (pointers.Breaks (exec env) thread w [] →
          P (pointers.upTo [] (thread.trace (exec env) w)) none) := by
  constructor
  · intro h
    exact ⟨h _ _ .returns, fun hbreaks => h _ _ (.aborts hbreaks)⟩
  · rintro ⟨hreturns, haborts⟩ calls after hfinishes
    cases hfinishes with
    | returns => exact hreturns
    | aborts hbreaks => exact haborts hbreaks

/-! ## Pointers that are kept -/

theorem useHandle_eq_some {directory : Option Nat} {after : List Nat}
    (h : useHandle opened directory = some after) :
    ∃ handle, directory = some handle ∧ handle ∈ opened ∧ after = opened := by
  cases directory with
  | none => cases h
  | some handle =>
    simp only [useHandle] at h
    split at h
    · rename_i hmem
      exact ⟨handle, rfl, hmem, (Option.some.inj h).symm⟩
    · cases h

/-- The rule asks for less than that of the handles. -/
theorem pointers_of_handles (opened : List Nat) (e : Event Call.Answer) (after : List Nat)
    (h : handles opened e = some after) : pointers opened e = some after := by
  obtain ⟨a, x⟩ := e
  cases a with
  | opendir path => cases x <;> exact h
  | closedir directory =>
    obtain ⟨opened', huse, rfl⟩ := Option.map_eq_some_iff.1 h
    obtain ⟨handle, rfl, hmem, rfl⟩ := useHandle_eq_some huse
    exact if_pos hmem
  | readdir directory =>
    obtain ⟨-, -, -, rfl⟩ := useHandle_eq_some h
    rfl
  | rewinddir directory =>
    obtain ⟨-, -, -, rfl⟩ := useHandle_eq_some h
    rfl
  | _ => exact h

/-- A part that is disciplined in its handles closes no stray pointer. -/
theorem pointers_leads_of_handles {ρ : Type} {part : Part ρ} {after : List Nat}
    (h : handles.Leads (exec env) part w opened after) :
    pointers.Leads (exec env) part w opened after :=
  h.of_le pointers_of_handles

/-- A part that has nothing to do with directories. -/
theorem pointers_elsewhere {ρ : Type} {part : Part ρ}
    (h : part.Always fun a _ => a.Elsewhere) :
    pointers.Leads (exec env) part w opened opened :=
  pointers_leads_of_handles (Monitor.leads_of_always handles_elsewhere h)

/-- `opendir` of a directory that is not there. -/
theorem pointers_opendir_none {ρ : Type} {path : Bytes} {next : Option Directory → Part ρ}
    {after : List Nat} (h : env.calls.opendir w.store.tree path = none)
    (hnext : pointers.Leads (exec env) (next none) w opened after) :
    pointers.Leads (exec env) (.call (.opendir path) next) w opened after := by
  have hexec := exec_opendir_none h
  refine Monitor.Leads.call (by rw [hexec]; rfl) ?_
  rw [hexec]
  exact hnext

/-- A lookup closes NULL, or the directory that it has opened. -/
theorem pointers_searchDirectory (path name : Bytes) :
    pointers.Leads (exec env) (searchDirectory path name) w opened opened := by
  cases h : env.calls.opendir w.store.tree path with
  | none => exact pointers_opendir_none h (.call rfl (Monitor.leads_done _))
  | some names => exact pointers_leads_of_handles (leads_searchDirectory h)

/-! ## LIST_CONTENT -/

theorem pointers_failed_none (status : Int) :
    pointers.Leads (exec env) (listContent.failed status none) w opened opened :=
  .call rfl (.call rfl (.call rfl (Monitor.leads_done _)))

/-- A listing of a name that is found closes what it has opened, or NULL. -/
theorem pointers_checked (v : Variables) (userName : Bytes) {registered : Int}
    (h : registered ≠ 0) :
    pointers.Leads (exec env) (listContent.checked v userName registered) w opened opened := by
  cases hopen : env.calls.opendir w.store.tree (userDirPath userName) with
  | none =>
    unfold listContent.checked
    rw [if_pos h]
    exact pointers_opendir_none hopen (.call rfl (pointers_failed_none _))
  | some names => exact pointers_leads_of_handles (leads_checked hopen registered h)

/-- A listing of a name that is not found closes NULL, if that is what `directory` holds. -/
theorem pointers_checked_null {v : Variables} (userName : Bytes) (h : v.directory = none) :
    pointers.Leads (exec env) (listContent.checked v userName 0) w opened opened := by
  unfold listContent.checked
  rw [if_neg (not_not.2 rfl), h]
  exact pointers_failed_none _

/-- What is called until a pointer of no open directory is closed. -/
theorem upTo_checked {v : Variables} (userName : Bytes) {handle : Nat}
    (h : v.directory = some handle) :
    pointers.upTo [] ((listContent.checked v userName 0).trace (exec env) w) =
      [⟨.send (htonl noContentToList), (w.outcomes 0).taken (htonl noContentToList)⟩,
        ⟨.closedir (some handle), ()⟩] := by
  unfold listContent.checked
  rw [if_neg (not_not.2 rfl), h]
  rfl

/-- And otherwise closes a pointer of no open directory, as none is open. -/
theorem breaks_checked_unset {v : Variables} (userName : Bytes) (h : v.directory ≠ none) :
    pointers.Breaks (exec env) (listContent.checked v userName 0) w [] := by
  obtain ⟨handle, hdirectory⟩ := Option.ne_none_iff_exists'.1 h
  unfold listContent.checked
  rw [if_neg (not_not.2 rfl), hdirectory]
  exact .call rfl (Monitor.breaks_call rfl)

/-- LIST_CONTENT reads both names, and the second has no entry in `./Users`. -/
def Misses (c : SysCalls) (t : Tree) (locals : Locals) (input : List ReadOutcome) : Prop :=
  ∃ userop rest user rest', receive locals.useropName input = some (userop, rest) ∧
    receive locals.userName rest = some (user, rest') ∧ Lab.isusrRegistered c t user.text = 0

/-- A call other than `close`. -/
def Call.Keeps : Call → Prop
  | .close => False
  | _ => True

/-- A listing whose name has no entry, up to its reply. -/
theorem trace_listContent_of_misses {v : Variables}
    (h : Misses env.calls w.store.tree v.toLocals w.input) :
    ∃ before w' userName, (∀ e ∈ before, e.1.Keeps) ∧ pointers.watch [] before = some [] ∧
      (listContent v).trace (exec env) w =
        before ++ (listContent.checked v userName 0).trace (exec env) w' := by
  obtain ⟨userop, rest, user, rest', huserop, huser, hzero⟩ := h
  obtain ⟨n, hn⟩ := run_isusrRegistered env user.text { w with input := rest' }
  have hlookup : pointers.Leads (exec env) (isusrRegistered user.text) { w with input := rest' } []
      [] := pointers_searchDirectory usersDirectory user.text
  have hkeeps : ∀ e ∈ (isusrRegistered user.text).trace (exec env) { w with input := rest' },
      e.1.Keeps := by
    intro e he
    have halways := always_searchDirectory (Q := Call.Keeps) (fun _ => trivial) (fun _ => trivial)
      (fun _ => trivial) usersDirectory user.text
    exact Program.of_mem_trace halways he
  refine ⟨⟨.readLine v.useropName, some userop⟩ :: ⟨.readLine v.userName, some user⟩ ::
    (isusrRegistered user.text).trace (exec env) { w with input := rest' },
    { w with input := rest', opened := n }, user.text, ?_, hlookup, ?_⟩
  · rw [List.forall_mem_cons, List.forall_mem_cons]
    exact ⟨trivial, trivial, hkeeps⟩
  · unfold listContent
    rw [Program.trace_call, exec_readLine_some env huserop]
    dsimp only
    rw [Program.trace_call, exec_readLine_some env huser]
    dsimp only
    rw [Program.trace_bind, hn, hzero]
    rfl

/-- A listing that does not get to a name without an entry. -/
theorem pointers_listContent {v : Variables}
    (h : ¬ Misses env.calls w.store.tree v.toLocals w.input) :
    pointers.Leads (exec env) (listContent v) w [] [] := by
  unfold listContent
  refine .call rfl ?_
  cases huserop : receive v.useropName w.input with
  | none =>
    obtain ⟨rest, hrest⟩ := exec_readLine_none env huserop
    rw [hrest]
    exact .call rfl (Monitor.leads_done _)
  | some r =>
    obtain ⟨userop, rest⟩ := r
    rw [exec_readLine_some env huserop]
    refine .call rfl ?_
    cases huser : receive v.userName rest with
    | none =>
      obtain ⟨rest', hrest'⟩ := exec_readLine_none env (w := { w with input := rest }) huser
      rw [hrest']
      exact .call rfl (Monitor.leads_done _)
    | some r' =>
      obtain ⟨user, rest'⟩ := r'
      rw [exec_readLine_some env (w := { w with input := rest }) huser]
      obtain ⟨n, hn⟩ := run_isusrRegistered env user.text { w with input := rest' }
      refine .bind (pointers_searchDirectory _ _) ?_
      dsimp only
      rw [hn]
      refine pointers_checked v user.text fun hzero => h ?_
      exact ⟨userop, rest, user, rest', huserop, huser, hzero⟩

/-! ## Handlers that return -/

/-- A call that is no `close` and has nothing to do with directories. -/
def Call.Neutral : Call → Prop
  | .close => False
  | .opendir _ => False
  | .readdir _ => False
  | .rewinddir _ => False
  | .closedir _ => False
  | _ => True

theorem Call.Neutral.keeps {a : Call} (h : a.Neutral) : a.Keeps := by
  cases a with
  | close => exact h.elim
  | _ => trivial

theorem Call.Neutral.elsewhere {a : Call} (h : a.Neutral) : a.Elsewhere := by
  cases a with
  | opendir path => exact h.elim
  | readdir directory => exact h.elim
  | rewinddir directory => exact h.elim
  | closedir directory => exact h.elim
  | _ => trivial

/-- The handler returns a status, does not close the socket and opens no directory of its own. -/
structure LeavesOpen (handler : Handler) : Prop where
  neutral : handler.Always fun a _ => a.Neutral
  returns : handler.Returns fun r => r.isSome

theorem leavesOpen_returnStatus (status : Int) : LeavesOpen (returnStatus status) := ⟨trivial, rfl⟩

theorem LeavesOpen.call {a : Call} {next : a.Answer → Handler} (ha : a.Neutral)
    (h : ∀ x, LeavesOpen (next x)) : LeavesOpen (.call a next) :=
  ⟨⟨ha, fun x => (h x).neutral⟩, fun x => (h x).returns⟩

theorem LeavesOpen.ite {p : Prop} [Decidable p] {handler handler' : Handler}
    (h : LeavesOpen handler) (h' : LeavesOpen handler') :
    LeavesOpen (if p then handler else handler') := by
  split
  · exact h
  · exact h'

/-- A field that cannot be read ends the handler with a status. -/
theorem leavesOpen_readField {size : Nat} {buffer : Buffer size} {failed : Int}
    {next : Line → Handler} (h : ∀ line, LeavesOpen (next line)) :
    LeavesOpen (readField buffer failed next) := by
  refine .call trivial fun x => ?_
  cases x with
  | none => exact leavesOpen_returnStatus failed
  | some line => exact h line

theorem leavesOpen_change (request : Request) : LeavesOpen (change request) :=
  .call trivial leavesOpen_returnStatus

section Handlers

variable (v : Variables)

theorem leavesOpen_registerUser : LeavesOpen (registerUser v) :=
  leavesOpen_readField fun _ => leavesOpen_change _

theorem leavesOpen_unregisterUser : LeavesOpen (unregisterUser v) :=
  leavesOpen_readField fun _ => leavesOpen_change _

theorem leavesOpen_connectUser : LeavesOpen (connectUser v) :=
  leavesOpen_readField fun _ => leavesOpen_readField fun _ => leavesOpen_change _

theorem leavesOpen_disconnectUser : LeavesOpen (disconnectUser v) :=
  leavesOpen_readField fun _ => leavesOpen_change _

theorem leavesOpen_publishFile : LeavesOpen (publishFile v) :=
  leavesOpen_readField fun _ => leavesOpen_readField fun _ => leavesOpen_readField fun _ =>
    leavesOpen_change _

theorem leavesOpen_deleteFile : LeavesOpen (deleteFile v) :=
  leavesOpen_readField fun _ => leavesOpen_readField fun _ => leavesOpen_change _

/-- The command is one of the listings. -/
def IsListing (command : Bytes) : Prop :=
  command = Command.listUsersList ∨ command = Command.listContentList

/-- The handlers that are no listings return, and close nothing. -/
theorem leavesOpen_commandSelector {command : Bytes} (h : ¬ IsListing command) :
    LeavesOpen (commandSelector v command) := by
  obtain ⟨hlistUsers, hlistContent⟩ := not_or.1 h
  unfold commandSelector
  rw [if_neg hlistUsers, if_neg hlistContent]
  refine .ite (leavesOpen_registerUser v) (.ite (leavesOpen_unregisterUser v) ?_)
  refine .ite (leavesOpen_connectUser v) (.ite (leavesOpen_disconnectUser v) ?_)
  refine .ite (leavesOpen_publishFile v) (.ite (leavesOpen_deleteFile v) ?_)
  exact leavesOpen_returnStatus _

end Handlers

/-! ## Requests -/

theorem elsewhere_closeSocket : closeSocket.Always fun a _ => a.Elsewhere :=
  always_closeSocket trivial

theorem elsewhere_replyStatus (r : Option Int) :
    (replyStatus r).Always fun a _ => a.Elsewhere := by
  cases r with
  | none => trivial
  | some output =>
    by_cases hself : output ≠ selfReply
    · rw [replyStatus, if_pos hself]
      exact ⟨trivial, fun _ => elsewhere_closeSocket⟩
    · rw [replyStatus, if_neg hself]
      exact elsewhere_closeSocket

/-- A handler that returns closes no directory of its own, and neither does the reply. -/
theorem pointers_leavesOpen {handler : Handler} (h : LeavesOpen handler) :
    pointers.Leads (exec env) (handler.bind replyStatus) w opened opened := by
  refine .bind (pointers_elsewhere (h.neutral.imp fun _ _ ha => ha.elsewhere)) ?_
  exact pointers_elsewhere (elsewhere_replyStatus _)

/-- A listing ends the thread. -/
theorem trace_exits (part : Part Unit) :
    ((exits part).bind replyStatus).trace (exec env) w = part.trace (exec env) w := by
  unfold exits
  simp only [Program.trace_bind, Program.run_bind, Program.trace_done, Program.run_done,
    replyStatus, List.append_nil]

theorem elsewhere_listUsers (locals : Locals) :
    (listUsers locals).Always fun a _ => a.Elsewhere :=
  always_listUsers (fun _ => trivial) trivial trivial (fun _ => trivial) (fun _ => trivial) trivial
    locals

/-- The thread closes a variable that points to no open directory: it is a LIST_CONTENT of a name
without an entry, and `directory` holds something. -/
def Strays (c : SysCalls) (t : Tree) (v : Variables) (input : List ReadOutcome) : Prop :=
  v.directory ≠ none ∧ ∃ message rest, receive v.message input = some (message, rest) ∧
    message.text = Command.listContentList ∧ Misses c t v.toLocals rest

/-- The calls of a thread that closes such a variable, up to that. None of them is `close`. -/
theorem keeps_of_strays {v : Variables} (h : Strays env.calls w.store.tree v w.input) :
    pointers.Breaks (exec env) (processRequest v) w [] ∧
      ∀ e ∈ pointers.upTo [] ((processRequest v).trace (exec env) w), e.1.Keeps := by
  obtain ⟨hdirectory, message, rest, hmessage, hcommand, hmisses⟩ := h
  obtain ⟨handle, hhandle⟩ := Option.ne_none_iff_exists'.1 hdirectory
  obtain ⟨before, w', userName, hkeeps, hwatch, htrace⟩ :=
    trace_listContent_of_misses (w := { w with input := rest }) hmisses
  have hprocess : (processRequest v).trace (exec env) w =
      (⟨.readLine v.message, some message⟩ :: before) ++
        (listContent.checked v userName 0).trace (exec env) w' := by
    unfold processRequest processRequest.selecting
    rw [Program.trace_call, exec_readLine_some env hmessage]
    dsimp only
    rw [hcommand, show commandSelector v Command.listContentList = exits (listContent v) from rfl,
      trace_exits, htrace, List.cons_append]
  have hbefore : pointers.watch [] (⟨.readLine v.message, some message⟩ :: before) = some [] :=
    hwatch
  refine ⟨?_, ?_⟩
  · unfold Monitor.Breaks
    rw [hprocess, Monitor.watch_append, hbefore]
    exact breaks_checked_unset userName hdirectory
  · rw [hprocess, Monitor.upTo_append hbefore, upTo_checked userName hhandle]
    simp only [List.mem_append, List.mem_cons, List.not_mem_nil, or_false]
    rintro e ((rfl | he) | rfl | rfl)
    · trivial
    · exact hkeeps e he
    · trivial
    · trivial

/-- A request closes no stray pointer, unless a LIST_CONTENT misses its name while `directory` holds
something. -/
theorem pointers_commandSelector {v : Variables} {command : Bytes}
    (h : command = Command.listContentList →
      v.directory = none ∨ ¬ Misses env.calls w.store.tree v.toLocals w.input) :
    pointers.Leads (exec env) ((commandSelector v command).bind replyStatus) w [] [] := by
  by_cases hlistUsers : command = Command.listUsersList
  · subst hlistUsers
    unfold Monitor.Leads
    rw [show commandSelector v Command.listUsersList = exits (listUsers v.toLocals) from rfl,
      trace_exits]
    exact pointers_elsewhere (elsewhere_listUsers _)
  · by_cases hlistContent : command = Command.listContentList
    · subst hlistContent
      unfold Monitor.Leads
      rw [show commandSelector v Command.listContentList = exits (listContent v) from rfl,
        trace_exits]
      by_cases hmisses : Misses env.calls w.store.tree v.toLocals w.input
      · have hnone := (h rfl).resolve_right (not_not.2 hmisses)
        obtain ⟨before, w', userName, -, hwatch, htrace⟩ := trace_listContent_of_misses hmisses
        rw [htrace, Monitor.watch_append, hwatch]
        exact pointers_checked_null userName hnone
      · exact pointers_listContent hmisses
    · refine pointers_leavesOpen (leavesOpen_commandSelector v ?_)
      rintro (h | h)
      · exact hlistUsers h
      · exact hlistContent h

/-- What holds after every command holds of the thread. -/
theorem pointers_selecting {v : Variables} {selector : Bytes → Handler}
    (h : ∀ message rest, receive v.message w.input = some (message, rest) →
      pointers.Leads (exec env) ((selector message.text).bind replyStatus)
        { w with input := rest } [] []) :
    pointers.Leads (exec env) (processRequest.selecting v selector) w [] [] := by
  unfold processRequest.selecting
  refine .call rfl ?_
  cases hmessage : receive v.message w.input with
  | none =>
    obtain ⟨rest, hrest⟩ := exec_readLine_none env hmessage
    rw [hrest]
    exact pointers_elsewhere elsewhere_closeSocket
  | some r =>
    obtain ⟨message, rest⟩ := r
    rw [exec_readLine_some env hmessage]
    exact h message rest hmessage

/-- **When a thread closes what it has not opened.** -/
theorem processRequest_breaks_iff (v : Variables) :
    pointers.Breaks (exec env) (processRequest v) w [] ↔
      Strays env.calls w.store.tree v w.input := by
  refine ⟨fun hbreaks => ?_, fun h => (keeps_of_strays h).1⟩
  by_contra hstrays
  refine hbreaks.not_leads (pointers_selecting fun message rest hmessage => ?_)
  refine pointers_commandSelector fun hcommand => ?_
  by_cases hdirectory : v.directory = none
  · exact Or.inl hdirectory
  · refine Or.inr fun hmisses => hstrays ?_
    exact ⟨hdirectory, message, rest, hmessage, hcommand, hmisses⟩

end DistributedSystems.Lab.Traced
