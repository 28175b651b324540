import DistributedSystems.Lab.ServerC.ThreadCalls
import DistributedSystems.Support.PartialWrites

/-!
# Torn listings (`serverc/PeerToPeer.c`)

What a listing puts on the socket, over the outcomes of its sends and writes. The status and the
count end the reply when they fail, but the loops over the fields go on after a failure, and no call
is repeated for the bytes that it has not taken. So a listing that loses a byte in its middle goes
on with the bytes that follow it.
-/

namespace DistributedSystems.Lab.Traced

open Fs Support

/-! ## What a trace puts on the socket -/

/-- The chunk of a send or a write. -/
def chunkOf : Event Call.Answer → Option (Chunk UInt8)
  | ⟨.send data, taken⟩ => some ⟨data, taken⟩
  | ⟨.write data, taken⟩ => some ⟨data, taken⟩
  | _ => none

/-- The bytes on the socket. -/
def sentBytes (trace : List (Event Call.Answer)) : Bytes := onWire (trace.filterMap chunkOf)

theorem sentBytes_append (trace trace' : List (Event Call.Answer)) :
    sentBytes (trace ++ trace') = sentBytes trace ++ sentBytes trace' := by
  unfold sentBytes onWire
  rw [List.filterMap_append, List.flatMap_append]

/-- A send or a write has failed. -/
def SendFailed (trace : List (Event Call.Answer)) : Prop :=
  ∃ chunk ∈ trace.filterMap chunkOf, chunk.Failed

/-- The bytes are a prefix of the complete reply, and the complete reply when no call failed. -/
def Untorn (trace : List (Event Call.Answer)) (complete : Bytes) : Prop :=
  sentBytes trace <+: complete ∧ (¬ SendFailed trace → sentBytes trace = complete)

instance (trace : List (Event Call.Answer)) : Decidable (SendFailed trace) :=
  inferInstanceAs (Decidable (∃ chunk ∈ trace.filterMap chunkOf, chunk.Failed))

instance (trace : List (Event Call.Answer)) (complete : Bytes) :
    Decidable (Untorn trace complete) :=
  inferInstanceAs (Decidable (_ ∧ _))

/-- The trace puts on the socket what is taken of these chunks, and has a failure when one of them
is. -/
structure Writes (trace : List (Event Call.Answer)) (chunks : List (Chunk UInt8)) : Prop where
  bytes : sentBytes trace = onWire chunks
  failed : SendFailed trace ↔ ∃ chunk ∈ chunks, chunk.Failed

namespace Writes

variable {trace trace' : List (Event Call.Answer)} {chunks chunks' : List (Chunk UInt8)}

theorem nil : Writes [] [] := ⟨rfl, Iff.rfl⟩

/-- A call on the socket. -/
theorem put {e : Event Call.Answer} {chunk : Chunk UInt8} (he : chunkOf e = some chunk)
    (h : Writes trace chunks) : Writes (e :: trace) (chunk :: chunks) where
  bytes := by
    have hbytes := h.bytes
    unfold sentBytes at hbytes ⊢
    rw [List.filterMap_cons_some he, onWire_cons, onWire_cons, hbytes]
  failed := by
    have hfailed := h.failed
    unfold SendFailed at hfailed ⊢
    simp only [List.filterMap_cons_some he, List.mem_cons, exists_eq_or_imp, hfailed]

/-- A call that is not on the socket. -/
theorem other {e : Event Call.Answer} (he : chunkOf e = none) (h : Writes trace chunks) :
    Writes (e :: trace) chunks where
  bytes := by
    have hbytes := h.bytes
    unfold sentBytes at hbytes ⊢
    rw [List.filterMap_cons_none he, hbytes]
  failed := by
    have hfailed := h.failed
    unfold SendFailed at hfailed ⊢
    rw [List.filterMap_cons_none he, hfailed]

/-- A chunk that no call is made for. -/
theorem skip {data : Bytes} (h : Writes trace chunks) : Writes trace (.unsent data :: chunks) where
  bytes := by rw [h.bytes, onWire_cons, Chunk.put_unsent, List.nil_append]
  failed := by
    simp only [h.failed, List.mem_cons, exists_eq_or_imp, Chunk.not_failed_unsent, false_or]

/-- What two parts write, one after the other. -/
theorem append (h : Writes trace chunks) (h' : Writes trace' chunks') :
    Writes (trace ++ trace') (chunks ++ chunks') where
  bytes := by rw [sentBytes_append, h.bytes, h'.bytes, onWire, onWire, onWire, List.flatMap_append]
  failed := by
    have hfailed := h.failed
    have hfailed' := h'.failed
    unfold SendFailed at hfailed hfailed' ⊢
    simp only [List.filterMap_append, List.mem_append, or_and_right, exists_or, hfailed, hfailed']

theorem untorn_iff (h : Writes trace chunks) : Untorn trace (message chunks) ↔ Intact chunks := by
  unfold Untorn Intact
  rw [h.bytes, h.failed]
  simp only [not_exists, not_and]

end Writes

/-! ## The chunks of a reply -/

/-- The chunk of a call with this outcome. -/
def offer (data : Bytes) (outcome : Outcome) : Chunk UInt8 := ⟨data, outcome.taken data⟩

/-- The outcomes after `n` more calls. -/
def later (outcomes : Nat → Outcome) (n : Nat) : Nat → Outcome := fun i => outcomes (i + n)

/-- The two writes for each field. The newline is not written after a string whose write fails. -/
def fieldChunks : List Bytes → (Nat → Outcome) → List (Chunk UInt8)
  | [], _ => []
  | field :: rest, outcomes =>
    let string := offer (field ++ [nul]) (outcomes 0)
    if outcomes 0 = .failed then
      string :: .unsent [newline] :: fieldChunks rest (later outcomes 1)
    else string :: offer [newline] (outcomes 1) :: fieldChunks rest (later outcomes 2)

/-- The chunks of the count and the fields. Nothing follows a count that is not sent. -/
def countedChunks (fields : List Bytes) (count : Int) (outcomes : Nat → Outcome) :
    List (Chunk UInt8) :=
  let number := offer (htonl count) (outcomes 0)
  if outcomes 0 = .failed then [number, .unsent (fields.flatMap sendField)]
  else number :: fieldChunks fields (later outcomes 1)

/-- The chunks of a listing. Nothing follows a status that is not sent. -/
def listingChunks (fields : List Bytes) (count : Int) (outcomes : Nat → Outcome) :
    List (Chunk UInt8) :=
  let status := offer (htonl success) (outcomes 0)
  if outcomes 0 = .failed then [status, .unsent (htonl count ++ fields.flatMap sendField)]
  else status :: countedChunks fields count (later outcomes 1)

/-- The chunk of a reply that is a status only. -/
def statusChunks (status : Int) (outcomes : Nat → Outcome) : List (Chunk UInt8) :=
  [offer (htonl status) (outcomes 0)]

theorem message_fieldChunks (fields : List Bytes) (outcomes : Nat → Outcome) :
    message (fieldChunks fields outcomes) = fields.flatMap sendField := by
  induction fields generalizing outcomes with
  | nil => rfl
  | cons field rest ih =>
    unfold fieldChunks
    split
    all_goals
      simp only [message_cons, ih, List.flatMap_cons, sendField, Lab.writeLine, offer,
        Chunk.unsent, List.append_assoc]

theorem message_listingChunks (fields : List Bytes) (count : Int) (outcomes : Nat → Outcome) :
    message (listingChunks fields count outcomes) =
      htonl success ++ htonl count ++ fields.flatMap sendField := by
  unfold listingChunks countedChunks
  split
  · simp [offer, Chunk.unsent]
  · split
    · simp [offer, Chunk.unsent]
    · simp [offer, message_fieldChunks]

theorem message_statusChunks (status : Int) (outcomes : Nat → Outcome) :
    message (statusChunks status outcomes) = htonl status := by
  simp [statusChunks, offer]

/-! ## The calls of a listing -/

section Calls

variable (env : Env) (w : World)

/-- The world after `n` sends or writes. -/
def World.after (n : Nat) : World := { w with outcomes := later w.outcomes n }

/-- How many writes a field takes. -/
def fieldCalls (outcomes : Nat → Outcome) : Nat := if outcomes 0 = .failed then 1 else 2

theorem Outcome.taken_of_ne_failed {outcome : Outcome} (h : outcome ≠ .failed) (data : Bytes) :
    ∃ n, outcome.taken data = some n := by
  cases outcome with
  | whole => exact ⟨_, rfl⟩
  | short n => exact ⟨_, rfl⟩
  | failed => exact absurd rfl h

/-- The calls of a field, and then those of the rest with the outcomes that are left. -/
theorem fieldChunks_cons (field : Bytes) (rest : List Bytes) (outcomes : Nat → Outcome) :
    fieldChunks (field :: rest) outcomes =
      fieldChunks [field] outcomes ++ fieldChunks rest (later outcomes (fieldCalls outcomes)) := by
  unfold fieldCalls
  simp only [fieldChunks]
  split <;> rfl

/-- `writeLine` offers a field with its NUL, and the newline unless that fails. -/
theorem writes_writeLine (field : Bytes) :
    Writes ((writeLine (field ++ [nul])).trace (exec env) w) (fieldChunks [field] w.outcomes) := by
  by_cases hfailed : w.outcomes 0 = .failed
  · simp only [fieldChunks, writeLine, Program.trace_call, exec, World.put, hfailed, Outcome.taken]
    exact .put rfl (.skip .nil)
  · obtain ⟨n, hn⟩ := Outcome.taken_of_ne_failed hfailed (field ++ [nul])
    simp only [fieldChunks, if_neg hfailed, writeLine, Program.trace_call, exec, World.put, hn]
    refine .put (by simp [chunkOf, offer, hn]) (.put rfl ?_)
    cases (w.outcomes 1).taken [newline] <;> exact .nil

theorem run_writeLine (data : Bytes) :
    ((writeLine data).run (exec env) w).2 = w.after (fieldCalls w.outcomes) := by
  unfold fieldCalls
  by_cases hfailed : w.outcomes 0 = .failed
  · simp only [writeLine, Program.run_call, exec, World.put, hfailed, Outcome.taken]
    rfl
  · obtain ⟨n, hn⟩ := Outcome.taken_of_ne_failed hfailed data
    simp only [if_neg hfailed, writeLine, Program.run_call, exec, World.put, hn]
    cases (w.outcomes 1).taken [newline] <;> rfl

/-- The loop goes on after a field that has failed. -/
theorem writes_sendFields (fields : List Bytes) :
    Writes ((sendFields fields).trace (exec env) w) (fieldChunks fields w.outcomes) := by
  induction fields generalizing w with
  | nil => exact .nil
  | cons field rest ih =>
    rw [fieldChunks_cons, sendFields, Program.trace_bind, run_writeLine]
    exact (writes_writeLine env w field).append (ih _)

theorem fileNames_cons (dName : Bytes) (rest : List Bytes) :
    fileNames (dName :: rest) =
      if dName = dot ∨ dName = dotDot then fileNames rest else dName :: fileNames rest := by
  by_cases hdot : dName = dot ∨ dName = dotDot
  · rw [if_pos hdot]
    exact List.filter_cons_of_neg (by simpa only [decide_eq_true_eq, not_not] using hdot)
  · rw [if_neg hdot]
    exact List.filter_cons_of_pos (decide_eq_true hdot)

/-- The loop of LIST_CONTENT sends the names that are no dots. -/
theorem writes_sendEntries (directory : Option Nat) (names : List Bytes) :
    Writes ((sendEntries directory names).trace (exec env) w)
      (fieldChunks (fileNames names) w.outcomes) := by
  induction names generalizing w with
  | nil => exact .other rfl .nil
  | cons dName rest ih =>
    rw [sendEntries, Program.trace_call]
    refine .other rfl ?_
    by_cases hdot : dName = dot ∨ dName = dotDot
    · rw [if_pos hdot, fileNames_cons, if_pos hdot]
      exact ih w
    · rw [if_neg hdot, fileNames_cons, if_neg hdot, fieldChunks_cons, Program.trace_bind]
      refine (writes_writeLine env w dName).append ?_
      rw [show exec env (.readdir directory) w = ((), w) from rfl, run_writeLine]
      exact ih _

/-- Counting sends nothing. -/
theorem writes_countEntries (directory : Option Nat) (names : List Bytes) :
    Writes ((countEntries directory names).trace (exec env) w) [] ∧
      ((countEntries directory names).run (exec env) w).2 = w := by
  induction names generalizing w with
  | nil => exact ⟨.other rfl .nil, rfl⟩
  | cons dName rest ih => exact ⟨.other rfl (ih w).1, (ih w).2⟩

theorem exec_send (data : Bytes) :
    exec env (.send data) w = ((w.outcomes 0).taken data, w.after 1) := rfl

/-- After a `send` that fails nothing more is sent. -/
theorem writes_send {data lost : Bytes} {next : Option Nat → Part Unit}
    {chunks : List (Chunk UInt8)}
    (hfailed : Writes ((next none).trace (exec env) (w.after 1)) [])
    (hsent : ∀ n, Writes ((next (some n)).trace (exec env) (w.after 1)) chunks) :
    Writes ((Program.call (.send data) next : Part Unit).trace (exec env) w)
      (if w.outcomes 0 = .failed then [offer data (w.outcomes 0), .unsent lost]
        else offer data (w.outcomes 0) :: chunks) := by
  rw [Program.trace_call]
  split
  · rename_i h
    refine .put rfl (.skip ?_)
    rw [exec_send, h]
    exact hfailed
  · rename_i h
    obtain ⟨n, hn⟩ := Outcome.taken_of_ne_failed h data
    refine .put rfl ?_
    rw [exec_send, hn]
    exact hsent n

theorem writes_closeSocket : Writes (closeSocket.trace (exec env) w) [] := .other rfl .nil

/-- What comes after a listing sends nothing. -/
theorem writes_finish (directory : Option Nat) :
    Writes ((listContent.finish directory).trace (exec env) w) [] :=
  .other rfl (.other rfl .nil)

theorem writes_failed (status : Int) (directory : Option Nat) :
    Writes ((listContent.failed status directory).trace (exec env) w)
      (statusChunks status w.outcomes) :=
  .put rfl (writes_finish env _ directory)

/-- A refusal sends its status. -/
theorem writes_refuse (status : Int) :
    Writes ((refuse status).trace (exec env) w) (statusChunks status w.outcomes) :=
  .put rfl .nil

/-- The fields of a listing, and then calls that are not on the socket. -/
theorem writes_bind_sendFields (fields : List Bytes) {next : Unit → Part Unit}
    (hnext : ∀ w, Writes ((next ()).trace (exec env) w) []) :
    Writes (((sendFields fields).bind next).trace (exec env) w)
      (fieldChunks fields w.outcomes) := by
  rw [Program.trace_bind, ← List.append_nil (fieldChunks fields w.outcomes)]
  exact (writes_sendFields env w fields).append (hnext _)

end Calls

section Listings

variable (env : Env) (v : Variables) (w : World)

/-- The chunks of the reply of `list_users`. -/
def listUsersChunks : List (Chunk UInt8) :=
  match receive v.userName w.input with
  | none => statusChunks otherError3 w.outcomes
  | some _ =>
    if env.allocated then
      let numberUsers := listGetSize w.store.connected
      listingChunks (((getElements w.store.connected).take numberUsers).flatMap userFields)
        numberUsers w.outcomes
    else statusChunks otherError3 w.outcomes

/-- The chunks of the reply of `list_content`. -/
def listContentChunks : List (Chunk UInt8) :=
  match receive v.useropName w.input with
  | none => statusChunks otherError4 w.outcomes
  | some (_, rest) =>
    match receive v.userName rest with
    | none => statusChunks otherError4 w.outcomes
    | some (userName, _) =>
      if Lab.isusrRegistered env.calls w.store.tree userName.text ≠ 0 then
        match env.calls.opendir w.store.tree (userDirPath userName.text) with
        | none => statusChunks otherError4 w.outcomes
        | some entries =>
          listingChunks (fileNames entries) (fileNames entries).length w.outcomes
      else statusChunks noContentToList w.outcomes

theorem userFields_sendField (user : UserServerData) :
    (userFields user).flatMap sendField = sendUser user := by
  simp [userFields, sendUser]

/-- The calls of LIST_USERS have the whole reply to send. -/
theorem message_listUsersChunks :
    message (listUsersChunks env v w) =
      Lab.listUsers env.allocated v.toLocals ⟨w.input, env.address⟩ w.store := by
  unfold listUsersChunks Lab.listUsers Lab.listUsers.act
  cases receive v.userName w.input with
  | none => exact message_statusChunks _ _
  | some _ =>
    by_cases hallocated : env.allocated = true
    · simp only [if_pos hallocated, message_listingChunks, List.flatMap_assoc, userFields_sendField]
    · simp only [if_neg hallocated, message_statusChunks]

/-- The calls of LIST_CONTENT have the whole reply to send. -/
theorem message_listContentChunks :
    message (listContentChunks env v w) =
      Lab.listContent env.calls v.toLocals ⟨w.input, env.address⟩ w.store := by
  unfold listContentChunks Lab.listContent Lab.listContent.act
  cases receive v.useropName w.input with
  | none => exact message_statusChunks _ _
  | some userop =>
    dsimp only
    cases receive v.userName userop.2 with
    | none => exact message_statusChunks _ _
    | some user =>
      dsimp only
      by_cases hregistered : Lab.isusrRegistered env.calls w.store.tree user.1.text ≠ 0
      · rw [if_pos hregistered, if_pos hregistered]
        cases env.calls.opendir w.store.tree (userDirPath user.1.text) with
        | none => exact message_statusChunks _ _
        | some entries => exact message_listingChunks _ _ _
      · rw [if_neg hregistered, if_neg hregistered]
        exact message_statusChunks _ _

/-- What LIST_USERS writes, by the outcomes. -/
theorem writes_listUsers :
    Writes ((listUsers v.toLocals).trace (exec env) w) (listUsersChunks env v w) := by
  unfold listUsers listUsersChunks
  rw [Program.trace_call]
  refine .other rfl ?_
  simp only [exec]
  cases receive v.userName w.input with
  | none => exact writes_refuse env _ _
  | some _ =>
    refine .other rfl ?_
    simp only [exec]
    by_cases hallocated : env.allocated = true
    · simp only [if_pos hallocated]
      refine writes_send env _ (writes_closeSocket env _) fun n => ?_
      refine .other rfl (writes_send env _ (writes_closeSocket env _) fun n' => ?_)
      exact writes_bind_sendFields env _ _ (writes_closeSocket env)
    · simp only [if_neg hallocated]
      exact .put rfl (.other rfl .nil)

/-- A listing sends its status, its number and its names. -/
theorem writes_counted (directory : Directory) :
    Writes ((listContent.counted directory).trace (exec env) w)
      (listingChunks (fileNames directory.names) (fileNames directory.names).length
        w.outcomes) := by
  refine .other rfl (writes_send env _ (writes_finish env _ _) fun n => ?_)
  refine writes_send env _ (writes_finish env _ _) fun n' => ?_
  rw [Program.trace_bind, ← List.append_nil (fieldChunks _ _)]
  exact (writes_sendEntries env _ _ _).append (writes_finish env _ _)

theorem writes_scan (directory : Option Nat) (name : Bytes) (names : List Bytes) :
    Writes ((scan directory name names).trace (exec env) w) [] := by
  induction names with
  | nil => exact .other rfl (.other rfl .nil)
  | cons dName rest ih =>
    rw [scan, Program.trace_call]
    refine .other rfl ?_
    split
    · exact .other rfl .nil
    · exact ih

theorem writes_isusrRegistered (userName : Bytes) :
    Writes ((isusrRegistered userName).trace (exec env) w) [] := by
  unfold isusrRegistered searchDirectory
  rw [Program.trace_call]
  refine .other rfl ?_
  cases (exec env (.opendir usersDirectory) w).1 with
  | none => exact .other rfl .nil
  | some directory => exact writes_scan env _ _ _ _

/-- What LIST_CONTENT writes once it knows whether the user is registered. -/
theorem writes_checked (userName : Bytes) (registered : Int) :
    Writes ((listContent.checked v userName registered).trace (exec env) w)
      (if registered ≠ 0 then
        match env.calls.opendir w.store.tree (userDirPath userName) with
        | none => statusChunks otherError4 w.outcomes
        | some entries => listingChunks (fileNames entries) (fileNames entries).length w.outcomes
      else statusChunks noContentToList w.outcomes) := by
  unfold listContent.checked
  by_cases hregistered : registered ≠ 0
  · rw [if_pos hregistered, if_pos hregistered, Program.trace_call]
    refine .other rfl ?_
    simp only [exec]
    cases env.calls.opendir w.store.tree (userDirPath userName) with
    | none => exact .other rfl (writes_failed env _ _ _)
    | some entries =>
      rw [listContent.opened, Program.trace_bind]
      have hcount := writes_countEntries env { w with opened := w.opened + 1 } (some w.opened)
        entries
      rw [hcount.2]
      exact hcount.1.append (writes_counted env _ _)
  · rw [if_neg hregistered, if_neg hregistered]
    exact writes_failed env w _ _

/-- What LIST_CONTENT writes, by the outcomes. -/
theorem writes_listContent :
    Writes ((listContent v).trace (exec env) w) (listContentChunks env v w) := by
  unfold listContent listContentChunks
  rw [Program.trace_call]
  refine .other rfl ?_
  cases huserop : receive v.useropName w.input with
  | none =>
    obtain ⟨rest, hrest⟩ := exec_readLine_none env huserop
    rw [hrest]
    exact writes_refuse env _ _
  | some userop =>
    rw [exec_readLine_some env huserop]
    refine .other rfl ?_
    cases huser : receive v.userName userop.2 with
    | none =>
      obtain ⟨rest, hrest⟩ := exec_readLine_none env (w := { w with input := userop.2 }) huser
      simp only [hrest, huser]
      exact writes_refuse env { w with input := rest } _
    | some user =>
      rw [exec_readLine_some env (w := { w with input := userop.2 }) huser]
      obtain ⟨n, hn⟩ := run_isusrRegistered env user.1.text { w with input := user.2 }
      simp only [huser, Program.trace_bind, hn]
      exact (writes_isusrRegistered env _ _).append
        (writes_checked env v { w with input := user.2, opened := n } _ _)

/-- One of the calls fails, and the calls after the first that is not whole take bytes that happen
to be the missing ones. -/
def FillsGap (chunks : List (Chunk UInt8)) : Prop := (∃ c ∈ chunks, c.Failed) ∧ Repeats chunks

/-- **When a listing is not torn.** All calls on the socket are whole, or one fails and nothing is
taken after the first that is not whole, or what is taken there happens to fill the gap. -/
theorem listing_untorn_iff :
    (Untorn ((listUsers v.toLocals).trace (exec env) w)
        (Lab.listUsers env.allocated v.toLocals ⟨w.input, env.address⟩ w.store) ↔
      Unbroken (listUsersChunks env v w) ∨ FillsGap (listUsersChunks env v w)) ∧
    (Untorn ((listContent v).trace (exec env) w)
        (Lab.listContent env.calls v.toLocals ⟨w.input, env.address⟩ w.store) ↔
      Unbroken (listContentChunks env v w) ∨ FillsGap (listContentChunks env v w)) := by
  constructor
  · rw [← message_listUsersChunks env v w, (writes_listUsers env v w).untorn_iff, intact_iff]
    rfl
  · rw [← message_listContentChunks env v w, (writes_listContent env v w).untorn_iff, intact_iff]
    rfl

end Listings

/-! ### A name that is not sent -/

/-- The third send or write has this outcome, and all others are whole. -/
def onThird (outcome : Outcome) : Nat → Outcome := fun n => if n = 2 then outcome else .whole

/-- The first name fails in one listing and is cut short in the other; both go on with what follows
it. -/
theorem first_name_torn :
    ¬ Untorn ((listUsers .zeros).trace (exec posixEnv)
          (aliceBobWorld (cstring "bob\x00") (onThird .failed)))
        (Lab.listUsers true .zeros ⟨received (cstring "bob\x00"), none⟩ aliceBobStore) ∧
      ¬ Untorn ((listContent .zeros).trace (exec posixEnv)
          (aliceBobWorld (cstring "bob\x00alice\x00") (onThird (.short 1))))
        (Lab.listContent (posix []) .zeros ⟨received (cstring "bob\x00alice\x00"), none⟩
          aliceBobStore) := by
  decide

end DistributedSystems.Lab.Traced
