import DistributedSystems.Lab.ServerC.TornReplies

/-!
# Threads whose writes are whole

The threads of the model by calls against the server of `Server.lean`, where a handler is one step
and its reply one list of bytes. When every send and write takes all of its bytes, a thread puts
that reply on its socket and leaves that store (`processRequest_sends`).
-/

namespace DistributedSystems.Lab.Traced

open Fs Support

/-! ## Whole chunks -/

theorem whole_offer (data : Bytes) : (offer data .whole).Whole := List.take_length

section Whole

variable {outcomes : Nat → Outcome} (h : ∀ n, outcomes n = .whole)

include h

/-- With whole outcomes a status is sent whole. -/
theorem whole_statusChunks (status : Int) : ∀ c ∈ statusChunks status outcomes, c.Whole := by
  intro c hc
  rw [statusChunks, h 0, List.mem_singleton] at hc
  rw [hc]
  exact whole_offer _

/-- And so are fields. -/
theorem whole_fieldChunks (fields : List Bytes) : ∀ c ∈ fieldChunks fields outcomes, c.Whole := by
  induction fields generalizing outcomes with
  | nil => simp [fieldChunks]
  | cons field rest ih =>
    simp only [fieldChunks, h 0, h 1, reduceCtorEq, if_false, List.forall_mem_cons]
    exact ⟨whole_offer _, whole_offer _, ih fun n => h (n + 2)⟩

/-- And so are listings. -/
theorem whole_listingChunks (fields : List Bytes) (count : Int) :
    ∀ c ∈ listingChunks fields count outcomes, c.Whole := by
  simp only [listingChunks, countedChunks, later, h, reduceCtorEq, if_false, List.forall_mem_cons]
  exact ⟨whole_offer _, whole_offer _, whole_fieldChunks (fun n => h _) _⟩

end Whole

section Listings

variable (env : Env) (v : Variables)

theorem whole_listUsersChunks {w : World} (h : ∀ n, w.outcomes n = .whole) :
    ∀ c ∈ listUsersChunks env v w, c.Whole := by
  unfold listUsersChunks
  split
  · exact whole_statusChunks h _
  · split
    · exact whole_listingChunks h _ _
    · exact whole_statusChunks h _

theorem whole_listContentChunks {w : World} (h : ∀ n, w.outcomes n = .whole) :
    ∀ c ∈ listContentChunks env v w, c.Whole := by
  unfold listContentChunks
  split
  · exact whole_statusChunks h _
  · split
    · exact whole_statusChunks h _
    · split
      · split
        · exact whole_statusChunks h _
        · exact whole_listingChunks h _ _
      · exact whole_statusChunks h _

end Listings

/-! ## Handlers that return -/

section Handlers

variable (env : Env) (v : Variables)

/-- The handler puts nothing on the socket, returns this status and leaves this store. -/
structure Answers (w : World) (handler : Handler) (r : Int × Store) : Prop where
  silent : Writes (handler.trace (exec env) w) []
  status : (handler.run (exec env) w).1 = some r.1
  store : (handler.run (exec env) w).2.store = r.2
  outcomes : (handler.run (exec env) w).2.outcomes = w.outcomes

variable {env v}

theorem answers_returnStatus (w : World) (status : Int) :
    Answers env w (returnStatus status) (status, w.store) :=
  ⟨.nil, rfl, rfl, rfl⟩

/-- A change of the store is one call, which does what the operation does. -/
theorem answers_change (w : World) (request : Request) :
    Answers env w (change request) (serve env.calls env.address request w.store) :=
  ⟨.other rfl .nil, rfl, rfl, rfl⟩

/-- A field that cannot be read ends the handler, and one that can is what it goes on with. -/
theorem answers_readField {w : World} {size : Nat} {buffer : Buffer size} {failed : Int}
    {next : Line → Handler} {r : Int × Store}
    (hnone : receive buffer w.input = none → r = (failed, w.store))
    (hsome : ∀ line rest, receive buffer w.input = some (line, rest) →
      Answers env { w with input := rest } (next line) r) :
    Answers env w (readField buffer failed next) r := by
  unfold readField
  cases h : receive buffer w.input with
  | none =>
    obtain ⟨rest, hrest⟩ := exec_readLine_none env h
    rw [hnone h]
    refine ⟨.other rfl ?_, ?_, ?_, ?_⟩
    all_goals first | rw [Program.run_call, hrest] | rw [hrest]
    · exact .nil
    all_goals rfl
  | some r' =>
    obtain ⟨line, rest⟩ := r'
    have hexec := exec_readLine_some env h
    have hnext := hsome line rest h
    refine ⟨.other rfl ?_, ?_, ?_, ?_⟩
    all_goals first | rw [Program.run_call, hexec] | rw [hexec]
    · exact hnext.silent
    · exact hnext.status
    · exact hnext.store
    · exact hnext.outcomes

variable (env v) (w : World)

/-- The calls of REGISTER are its handler. -/
theorem answers_registerUser : Answers env w (registerUser v)
    (Lab.registerUser env.calls v.toLocals ⟨w.input, env.address⟩ w.store) := by
  unfold Lab.registerUser
  refine answers_readField (fun h => by simp only [h]) fun userName rest h => ?_
  simp only [h]
  exact answers_change { w with input := rest } _

/-- The calls of UNREGISTER are its handler. -/
theorem answers_unregisterUser : Answers env w (unregisterUser v)
    (Lab.unregisterUser env.calls v.toLocals ⟨w.input, env.address⟩ w.store) := by
  unfold Lab.unregisterUser
  refine answers_readField (fun h => by simp only [h]) fun userName rest h => ?_
  simp only [h]
  exact answers_change { w with input := rest } _

/-- The calls of CONNECT are its handler. -/
theorem answers_connectUser : Answers env w (connectUser v)
    (Lab.connectUser env.calls v.toLocals ⟨w.input, env.address⟩ w.store) := by
  unfold Lab.connectUser
  refine answers_readField (fun h => by simp only [h]) fun userName rest h => ?_
  simp only [h]
  refine answers_readField (fun h' => by simp only [h']) fun userPort rest' h' => ?_
  simp only [h']
  exact answers_change { w with input := rest' } _

/-- The calls of DISCONNECT are its handler. -/
theorem answers_disconnectUser : Answers env w (disconnectUser v)
    (Lab.disconnectUser env.calls v.toLocals ⟨w.input, env.address⟩ w.store) := by
  unfold Lab.disconnectUser
  refine answers_readField (fun h => by simp only [h]) fun userName rest h => ?_
  simp only [h]
  exact answers_change { w with input := rest } _

/-- The calls of PUBLISH are its handler. -/
theorem answers_publishFile : Answers env w (publishFile v)
    (Lab.publishFile env.calls v.toLocals ⟨w.input, env.address⟩ w.store) := by
  unfold Lab.publishFile
  refine answers_readField (fun h => by simp only [h]) fun userName rest h => ?_
  simp only [h]
  refine answers_readField (fun h' => by simp only [h']) fun fileName rest' h' => ?_
  simp only [h']
  refine answers_readField (fun h'' => by simp only [h'']) fun fileDescription rest'' h'' => ?_
  simp only [h'']
  exact answers_change { w with input := rest'' } _

/-- The calls of DELETE are its handler. -/
theorem answers_deleteFile : Answers env w (deleteFile v)
    (Lab.deleteFile env.calls v.toLocals ⟨w.input, env.address⟩ w.store) := by
  unfold Lab.deleteFile
  refine answers_readField (fun h => by simp only [h]) fun userName rest h => ?_
  simp only [h]
  refine answers_readField (fun h' => by simp only [h']) fun fileName rest' h' => ?_
  simp only [h']
  exact answers_change { w with input := rest' } _

end Handlers

/-! ## What follows a handler -/

section Sends

variable (env : Env) (w : World)

/-- The part sends these bytes and leaves this store. -/
def Sends (part : Part Unit) (r : Bytes × Store) : Prop :=
  sentBytes (part.trace (exec env) w) = r.1 ∧ (part.run (exec env) w).2.store = r.2

variable {env w}

/-- Both branches of a selector send what they should. -/
theorem Sends.ite {p : Prop} [Decidable p] {handler handler' : Handler} {r r' : Handled × Store}
    (h : Sends env w (handler.bind replyStatus) (r.1.reply, r.2))
    (h' : Sends env w (handler'.bind replyStatus) (r'.1.reply, r'.2)) :
    Sends env w ((if p then handler else handler').bind replyStatus)
      ((if p then r else r').1.reply, (if p then r else r').2) := by
  split
  · exact h
  · exact h'

/-- A handler that returns, and then its status. -/
theorem Answers.sends {handler : Handler} {r : Int × Store} (hwhole : ∀ n, w.outcomes n = .whole)
    (h : Answers env w handler r) :
    Sends env w (handler.bind replyStatus) ((Handled.returns r.1).reply, r.2) := by
  have hoffer : (offer (htonl r.1) (w.outcomes 0)).put = htonl r.1 := by
    rw [hwhole 0]
    exact whole_offer _
  unfold Sends
  rw [Program.trace_bind, Program.run_bind, h.status]
  unfold replyStatus Handled.reply
  by_cases hself : r.1 ≠ selfReply
  · simp only [if_pos hself]
    have hsend : Writes
        ((Program.call (.send (htonl r.1)) fun _ => closeSocket : Part Unit).trace (exec env)
          (handler.run (exec env) w).2)
        [offer (htonl r.1) ((handler.run (exec env) w).2.outcomes 0)] :=
      .put rfl (writes_closeSocket env _)
    rw [h.outcomes] at hsend
    refine ⟨(h.silent.append hsend).bytes.trans ?_, h.store⟩
    simp [hoffer]
  · simp only [if_neg hself]
    exact ⟨(h.silent.append (writes_closeSocket env _)).bytes, h.store⟩

/-- A handler that ends the thread, after a listing. -/
theorem sends_exits {part : Part Unit} {chunks : List (Chunk UInt8)}
    (h : Writes (part.trace (exec env) w) chunks) (hwhole : ∀ c ∈ chunks, c.Whole)
    (hstore : (part.run (exec env) w).2.store = w.store) :
    Sends env w ((exits part).bind replyStatus) (message chunks, w.store) := by
  unfold Sends exits
  simp only [Program.trace_bind, Program.run_bind, Program.trace_done, Program.run_done,
    replyStatus, List.append_nil]
  exact ⟨h.bytes.trans ((onWire_eq_message_iff chunks).2 hwhole), hstore⟩

end Sends

/-! ## What the listings leave alone -/

/-- The call leaves the store as it is. -/
def Call.Reads : Call → Prop
  | .unlink _ => False
  | .rmdir _ => False
  | .change _ => False
  | .rpc _ => False
  | _ => True

/-- A call that reads leaves the store as it is. -/
theorem exec_store_of_reads (env : Env) (a : Call) (h : a.Reads) (w : World) :
    (exec env a w).2.store = w.store := by
  cases a with
  | opendir path =>
    simp only [exec]
    split <;> rfl
  | unlink path => exact h.elim
  | rmdir path => exact h.elim
  | change request => exact h.elim
  | rpc procedure => exact h.elim
  | _ => rfl

theorem reads_closeSocket : closeSocket.Always fun a _ => a.Reads := always_closeSocket trivial

theorem reads_refuse (status : Int) : (refuse status).Always fun a _ => a.Reads :=
  always_refuse (fun _ => trivial) status

/-- LIST_USERS only reads. -/
theorem reads_listUsers (locals : Locals) : (listUsers locals).Always fun a _ => a.Reads :=
  always_listUsers (fun _ => trivial) trivial trivial (fun _ => trivial) (fun _ => trivial) trivial
    locals

theorem reads_finish (directory : Option Nat) :
    (listContent.finish directory).Always fun a _ => a.Reads :=
  ⟨trivial, fun _ => reads_closeSocket⟩

theorem reads_counted (directory : Directory) :
    (listContent.counted directory).Always fun a _ => a.Reads := by
  refine ⟨trivial, fun _ => ⟨trivial, fun x => ?_⟩⟩
  cases x with
  | none => exact reads_finish _
  | some _ =>
    refine ⟨trivial, fun y => ?_⟩
    cases y with
    | none => exact reads_finish _
    | some _ =>
      exact Program.always_bind (always_sendEntries (fun _ => trivial) (fun _ => trivial) _ _)
        fun _ => reads_finish _

theorem reads_checked (v : Variables) (userName : Bytes) (registered : Int) :
    (listContent.checked v userName registered).Always fun a _ => a.Reads := by
  unfold listContent.checked
  split
  · refine ⟨trivial, fun x => ?_⟩
    cases x with
    | none => exact ⟨trivial, fun _ => ⟨trivial, fun _ => reads_finish _⟩⟩
    | some directory =>
      exact Program.always_bind (always_countEntries (fun _ => trivial) _ _)
        fun _ => reads_counted _
  · exact ⟨trivial, fun _ => reads_finish _⟩

/-- LIST_CONTENT only reads. -/
theorem reads_listContent (v : Variables) : (listContent v).Always fun a _ => a.Reads := by
  refine ⟨trivial, fun x => ?_⟩
  cases x with
  | none => exact reads_refuse _
  | some _ =>
    refine ⟨trivial, fun y => ?_⟩
    cases y with
    | none => exact reads_refuse _
    | some userName =>
      have hlookup := always_searchDirectory (Q := Call.Reads) (fun _ => trivial)
        (fun _ => trivial) (fun _ => trivial) usersDirectory userName.text
      exact Program.always_bind hlookup fun _ => reads_checked _ _ _

/-! ## Requests -/

section Requests

variable (env : Env) (v : Variables) {w : World} (hwhole : ∀ n, w.outcomes n = .whole)

include hwhole

/-- A LIST_USERS by calls sends its reply and ends the thread. -/
theorem sends_listUsers : Sends env w ((exits (listUsers v.toLocals)).bind replyStatus)
    (Lab.listUsers env.allocated v.toLocals ⟨w.input, env.address⟩ w.store, w.store) := by
  rw [← message_listUsersChunks env v w]
  exact sends_exits (writes_listUsers env v w) (whole_listUsersChunks env v hwhole)
    (Program.run_of_always (exec_store_of_reads env) (reads_listUsers _) w)

/-- A LIST_CONTENT by calls sends its reply and ends the thread. -/
theorem sends_listContent : Sends env w ((exits (listContent v)).bind replyStatus)
    (Lab.listContent env.calls v.toLocals ⟨w.input, env.address⟩ w.store, w.store) := by
  rw [← message_listContentChunks env v w]
  exact sends_exits (writes_listContent env v w) (whole_listContentChunks env v hwhole)
    (Program.run_of_always (exec_store_of_reads env) (reads_listContent _) w)

/-- The selector by calls sends what the selector at once replies. -/
theorem sends_commandSelector (buffer : Bytes) :
    Sends env w ((commandSelector v buffer).bind replyStatus)
      ((Lab.commandSelector env.calls env.allocated v.toLocals ⟨w.input, env.address⟩ buffer
          w.store).1.reply,
        (Lab.commandSelector env.calls env.allocated v.toLocals ⟨w.input, env.address⟩ buffer
          w.store).2) := by
  unfold commandSelector Lab.commandSelector
  apply Sends.ite ((answers_registerUser env v w).sends hwhole)
  apply Sends.ite ((answers_unregisterUser env v w).sends hwhole)
  apply Sends.ite ((answers_connectUser env v w).sends hwhole)
  apply Sends.ite ((answers_disconnectUser env v w).sends hwhole)
  apply Sends.ite ((answers_publishFile env v w).sends hwhole)
  apply Sends.ite ((answers_deleteFile env v w).sends hwhole)
  apply Sends.ite (sends_listUsers env v hwhole)
  apply Sends.ite (sends_listContent env v hwhole)
  exact (answers_returnStatus w v.output).sends hwhole

/-- **With every send and write whole, a thread replies as the server does that is without its
calls**, and leaves the same store. -/
theorem processRequest_sends :
    Sends env w (processRequest v)
      (Lab.processRequest env.calls env.allocated v.toLocals ⟨w.input, env.address⟩ w.store) := by
  unfold processRequest processRequest.selecting Lab.processRequest Sends
  rw [Program.trace_call, Program.run_call]
  cases hmessage : receive v.message w.input with
  | none =>
    obtain ⟨rest, hrest⟩ := exec_readLine_none env hmessage
    rw [hrest]
    exact ⟨(Writes.other rfl (writes_closeSocket env _)).bytes, rfl⟩
  | some message =>
    obtain ⟨message, rest⟩ := message
    rw [exec_readLine_some env hmessage]
    exact sends_commandSelector env v (w := { w with input := rest }) hwhole message.text

end Requests

end DistributedSystems.Lab.Traced
