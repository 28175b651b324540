import DistributedSystems.Lab.ServerC.RpcThreads
import DistributedSystems.Lab.ServerRpc.FailedScans

/-!
# Failed calls of the RPC client (`serverc/PeerToPeerRPC.c`)

What the front end sends when the call through a stub is not `RPC_SUCCESS`, whatever the memory of
the result holds. The six handlers with an `int` send their case for anything else and do not look
at the result. The two listings have set that status too, but go on to read the list that the call
has not made (`failedCall_reported_iff`).
-/

namespace DistributedSystems.Lab

open Fs Support

/-- LIST_USERS and LIST_CONTENT. -/
def Operation.Lists : Operation → Prop
  | .change _ => False
  | .listUsers _ => True
  | .listContent _ _ => True

namespace Traced

/-- The call reads what a call through a stub has left. -/
def Call.ReadsResult : Call → Prop
  | .result => True
  | .userListLen => True
  | .userListVal _ => True
  | .titleListLen => True
  | .titleListVal _ => True
  | _ => False

instance : DecidablePred Call.ReadsResult := fun a => by
  cases a <;> unfold Call.ReadsResult <;> infer_instance

/-- The status is the one thing that is sent, and the result is not read. -/
structure ReportsFailure (trace : List (Event Call.Answer)) (code : Int) : Prop where
  sent : (trace.filterMap chunkOf).map Chunk.data = [htonl code]
  unread : ∀ e ∈ trace, ¬ e.1.ReadsResult

variable (env : Env)

/-- The handler returns the code, and has neither sent anything nor read the result. -/
structure Declines (w : World) (handler : Handler) (code : Int) : Prop where
  status : (handler.run (exec env) w).1 = some code
  silent : (handler.trace (exec env) w).filterMap chunkOf = []
  unread : ∀ e ∈ handler.trace (exec env) w, ¬ e.1.ReadsResult

variable {env} {v : Variables} {w : World}

theorem declines_returnStatus (code : Int) : Declines env w (returnStatus code) code :=
  ⟨rfl, rfl, nofun⟩

/-- A call before the one that fails neither sends nor reads a result. -/
theorem Declines.call {a : Call} {next : a.Answer → Handler} {code : Int}
    (hchunk : chunkOf ⟨a, (exec env a w).1⟩ = none) (hreads : ¬ a.ReadsResult)
    (h : Declines env (exec env a w).2 (next (exec env a w).1) code) :
    Declines env w (.call a next) code where
  status := h.status
  silent := by rw [Program.trace_call, List.filterMap_cons_none hchunk, h.silent]
  unread := by
    rw [Program.trace_call, List.forall_mem_cons]
    exact ⟨hreads, h.unread⟩

/-- A procedure whose call fails returns the code of the failure. -/
theorem declines_callProcedure (hfails : ∀ procedure s, (env.rpc procedure s).ret ≠ rpcSuccess)
    (procedure : Procedure) (failed : Int) :
    Declines env w (callProcedure procedure failed) failed := by
  refine .call rfl id ?_
  have hret : (exec env (.rpc procedure) w).1 ≠ rpcSuccess := hfails procedure w.store
  unfold callProcedure.returned
  rw [if_pos hret]
  exact declines_returnStatus failed

/-- A field that has arrived. -/
theorem declines_readField {size : Nat} (hsize : 1 < size) {buffer : Buffer size} {a : Arrived}
    {failed code : Int} {next : Line → Handler} (hinput : w.input = received a.bytes)
    (h : ∀ w', w'.input = received a.rest.bytes → Declines env w' (next (a.next buffer)) code) :
    Declines env w (readField buffer failed next) code := by
  have hreceive := receive_arrived hsize buffer a
  rw [← hinput] at hreceive
  refine .call rfl id ?_
  rw [exec_readLine_some env hreceive]
  exact h _ rfl

/-- After a handler that declines, its code is the one thing that is sent. -/
theorem Declines.reports {handler : Handler} {code : Int} (h : Declines env w handler code)
    (hself : code ≠ selfReply) :
    ReportsFailure ((handler.bind replyStatus).trace (exec env) w) code := by
  have htrace : (handler.bind replyStatus).trace (exec env) w =
      handler.trace (exec env) w ++ [⟨.send (htonl code), ((handler.run (exec env) w).2.outcomes
        0).taken (htonl code)⟩, ⟨.close, ()⟩] := by
    rw [Program.trace_bind, h.status, replyStatus, if_pos hself]
    rfl
  rw [htrace]
  constructor
  · rw [List.filterMap_append, h.silent]
    rfl
  · intro e he
    rw [List.mem_append] at he
    rcases he with he | he
    · exact h.unread e he
    · simp only [List.mem_cons, List.not_mem_nil, or_false] at he
      rcases he with rfl | rfl <;> exact id

/-! ## One comparison of the selector -/

section Selector

variable {a : Arrived}

/-- What is to be shown of the handler of an operation. -/
def ReportsUnless (env : Env) (w : World) (handler : Handler) (op : Operation) : Prop :=
  ReportsFailure ((handler.bind replyStatus).trace (exec env) w) op.otherCase ↔ ¬ op.Lists

theorem reportsUnless_ite {p : Prop} [Decidable p] {handler handler' : Handler} {op : Operation}
    {other : Option Operation} (h : ReportsUnless env w handler op)
    (h' : ∀ op', other = some op' → ReportsUnless env w handler' op') :
    ∀ op', (if p then some op else other) = some op' →
      ReportsUnless env w (if p then handler else handler') op' := by
  intro op' hop
  split at hop
  · rename_i hp
    rw [if_pos hp]
    cases hop
    exact h
  · rename_i hp
    rw [if_neg hp]
    exact h' op' hop

/-- A handler that declines reports the failure with its code. -/
theorem Declines.reportsUnless {handler : Handler} {request : Request}
    (h : Declines env w handler (Operation.change request).otherCase) :
    ReportsUnless env w handler (.change request) := by
  refine iff_of_true (h.reports ?_) id
  cases request <;> simp [Operation.otherCase, selfReply]

/-- A handler that reads the result. -/
theorem reportsUnless_of_reads {part : Part Unit} {op : Operation} (hop : op.Lists)
    (h : ∃ e ∈ part.trace (exec env) w, e.1.ReadsResult) :
    ReportsUnless env w (exits part) op := by
  obtain ⟨e, he, hreads⟩ := h
  refine iff_of_false (fun hreports => hreports.unread e ?_ hreads) (not_not.2 hop)
  rw [exits, Program.trace_bind, Program.trace_bind, List.append_assoc]
  exact List.mem_append_left _ he

/-- LIST_USERS goes on after its failed call, and reads the result. -/
theorem listUsersRpc_reads (locals : Locals) (hinput : w.input = received a.bytes) :
    ∃ e ∈ (listUsersRpc locals).trace (exec env) w, e.1.ReadsResult := by
  have hreceive := receive_arrived (by decide : 1 < maxSize) locals.userName a
  rw [← hinput] at hreceive
  rw [listUsersRpc, Program.trace_call, exec_readLine_some env hreceive]
  exact ⟨_, List.mem_cons_of_mem _ (List.mem_cons_of_mem _ List.mem_cons_self), trivial⟩

/-- LIST_CONTENT goes on after its failed call, and reads the result. -/
theorem listContentRpc_reads (locals : Locals) (hinput : w.input = received a.bytes) :
    ∃ e ∈ (listContentRpc locals).trace (exec env) w, e.1.ReadsResult := by
  have huserop := receive_arrived (by decide : 1 < maxSize) locals.useropName a
  rw [← hinput] at huserop
  have huser := receive_arrived (by decide : 1 < maxSize) locals.userName a.rest
  have hexec := exec_readLine_some env (w := { w with input := received a.rest.bytes }) huser
  rw [listContentRpc, Program.trace_call, exec_readLine_some env huserop]
  dsimp only
  rw [Program.trace_call, hexec]
  exact ⟨_, List.mem_cons_of_mem _ (List.mem_cons_of_mem _ (List.mem_cons_of_mem _
    List.mem_cons_self)), trivial⟩

end Selector

/-! ## Requests -/

section Requests

variable (hfails : ∀ procedure s, (env.rpc procedure s).ret ≠ rpcSuccess) {a : Arrived}
  (hinput : w.input = received a.bytes)

include hfails hinput

theorem declines_registerUserRpc (v : Variables) : Declines env w (registerUserRpc v) 2 :=
  declines_readField (by decide) hinput fun _ _ => declines_callProcedure hfails _ _

theorem declines_unregisterUserRpc (v : Variables) : Declines env w (unregisterUserRpc v) 2 :=
  declines_readField (by decide) hinput fun _ _ => declines_callProcedure hfails _ _

/-- Without an address the procedure is not called, and the code is the same. -/
theorem declines_connectUserRpc (v : Variables) : Declines env w (connectUserRpc v) 3 := by
  refine declines_readField (by decide) hinput fun w₁ h₁ => ?_
  refine declines_readField (by decide) h₁ fun w₂ _ => ?_
  refine .call rfl id ?_
  cases (exec env .getSocketAddress w₂).1 with
  | none => exact declines_returnStatus 3
  | some clientAddress => exact declines_callProcedure hfails _ _

theorem declines_disconnectUserRpc (v : Variables) : Declines env w (disconnectUserRpc v) 3 :=
  declines_readField (by decide) hinput fun _ _ => declines_callProcedure hfails _ _

theorem declines_publishFileRpc (v : Variables) : Declines env w (publishFileRpc v) 4 :=
  declines_readField (by decide) hinput fun _ h₁ =>
    declines_readField (by decide) h₁ fun _ h₂ =>
      declines_readField (by decide) h₂ fun _ _ => declines_callProcedure hfails _ _

theorem declines_deleteFileRpc (v : Variables) : Declines env w (deleteFileRpc v) 4 :=
  declines_readField (by decide) hinput fun _ h₁ =>
    declines_readField (by decide) h₁ fun _ _ => declines_callProcedure hfails _ _

end Requests

theorem reportsUnless_listUsersRpc {a : Arrived} (hinput : w.input = received a.bytes)
    (v : Variables) (userName : Line) :
    ReportsUnless env w (exits (listUsersRpc v.toLocals)) (.listUsers userName) :=
  reportsUnless_of_reads trivial (listUsersRpc_reads v.toLocals hinput)

theorem reportsUnless_listContentRpc {a : Arrived} (hinput : w.input = received a.bytes)
    (v : Variables) (useropName userName : Line) :
    ReportsUnless env w (exits (listContentRpc v.toLocals)) (.listContent useropName userName) :=
  reportsUnless_of_reads trivial (listContentRpc_reads v.toLocals hinput)

/-- All operations but the two listings report that their call has failed. -/
theorem reportsUnless_commandSelectorRpc {a : Arrived}
    (hfails : ∀ procedure s, (env.rpc procedure s).ret ≠ rpcSuccess)
    (hinput : w.input = received a.rest.bytes) :
    ∀ op, operationOf v.toLocals a = some op →
      ReportsUnless env w (commandSelectorRpc v (a.next v.message).text) op := by
  unfold operationOf commandSelectorRpc
  apply reportsUnless_ite (declines_registerUserRpc hfails hinput v).reportsUnless
  apply reportsUnless_ite (declines_unregisterUserRpc hfails hinput v).reportsUnless
  apply reportsUnless_ite (declines_connectUserRpc hfails hinput v).reportsUnless
  apply reportsUnless_ite (declines_disconnectUserRpc hfails hinput v).reportsUnless
  apply reportsUnless_ite (declines_publishFileRpc hfails hinput v).reportsUnless
  apply reportsUnless_ite (declines_deleteFileRpc hfails hinput v).reportsUnless
  apply reportsUnless_ite (reportsUnless_listUsersRpc hinput v _)
  apply reportsUnless_ite (reportsUnless_listContentRpc hinput v _ _)
  intro op hop
  cases hop

/-- A call that sends nothing and reads no result does not count. -/
theorem reportsFailure_cons_iff {e : Event Call.Answer} {trace : List (Event Call.Answer)}
    {code : Int} (hchunk : chunkOf e = none) (hreads : ¬ e.1.ReadsResult) :
    ReportsFailure (e :: trace) code ↔ ReportsFailure trace code := by
  constructor
  · intro h
    refine ⟨?_, fun e he => h.unread e (List.mem_cons_of_mem _ he)⟩
    have hsent := h.sent
    rwa [List.filterMap_cons_none hchunk] at hsent
  · intro h
    refine ⟨?_, List.forall_mem_cons.2 ⟨hreads, h.unread⟩⟩
    rw [List.filterMap_cons_none hchunk]
    exact h.sent

/-- **When a failed call is reported as a failure**: the operation is not one of the listings. -/
theorem failedCall_reported_iff (env : Env) (v : Variables) (w : World) (request : Bytes)
    (op : Operation) (hinput : w.input = received request)
    (hop : operationOf v.toLocals (.of request) = some op)
    (hfails : ∀ procedure s, (env.rpc procedure s).ret ≠ rpcSuccess) :
    ReportsFailure ((processRequestRpc v).trace (exec env) w) op.otherCase ↔ ¬ op.Lists := by
  have hbytes : w.input = received (Arrived.of request).bytes := by rw [hinput, Arrived.bytes_of]
  generalize Arrived.of request = a at hbytes hop
  have hreceive := receive_arrived (by decide : 1 < maxSize) v.message a
  rw [← hbytes] at hreceive
  rw [processRequestRpc, processRequest.selecting, Program.trace_call,
    reportsFailure_cons_iff rfl id, exec_readLine_some env hreceive]
  exact reportsUnless_commandSelectorRpc hfails rfl op hop

/-- The call has failed and left this in the memory of its result. -/
def failingEnv (users : List UserServer) : Env :=
  { posixEnv with rpc := fun _ s => ⟨1, { Results.empty with users := .of users }, s⟩ }

theorem register_reports_failedCall :
    ReportsFailure ((processRequestRpc .zeros).trace (exec (failingEnv []))
      (aliceBobWorld (cstring "REGISTER\x00carol\x00") fun _ => .whole)) 2 :=
  (failedCall_reported_iff (failingEnv []) .zeros
    (aliceBobWorld (cstring "REGISTER\x00carol\x00") fun _ => .whole) _
    (.change (.register (.of (cstring "carol")))) rfl (by decide) (fun _ _ =>
      (by decide : (1 : Int) ≠ rpcSuccess))).2 id

/-- A failed LIST_USERS answers with success and lists what happens to be in the memory. -/
theorem failed_listUsers_answered :
    let trace := (processRequestRpc .zeros).trace (exec (failingEnv [⟨cstring "x", [], []⟩]))
      (aliceBobWorld (cstring "LIST_USERS\x00alice\x00") fun _ => .whole)
    sentBytes trace = htonl 0 ++ htonl 1 ++ cstring "x\x00\n\x00\n\x00\n" ∧
      ¬ ReportsFailure trace 3 := by
  intro trace
  refine ⟨by decide, fun h => ?_⟩
  have hsent := h.sent
  revert hsent
  decide

end Traced

end DistributedSystems.Lab
