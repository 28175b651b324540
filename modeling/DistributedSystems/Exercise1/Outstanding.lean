import DistributedSystems.Exercise1.ClientCalls
import Mathlib.Data.List.Perm.Basic
import Mathlib.Data.List.Perm.Subperm

/-!
# Outstanding requests (`Exercise1/array.c`)

All calls of a process use one queue, and a call that fails at `mq_receive` leaves it in place with
its answer still to come. A step is `Settled` unless it sends a request while one of an earlier call
of the process is outstanding. `Inv` is what such steps keep: a process has one outstanding request
at most, and while a call waits for its answer that request is its own.
-/

namespace DistributedSystems.Exercise1.Client

open Support
open scoped List

/-! ## Outstanding requests -/

/-- The calls of a process whose requests are with the server, and those whose answers are in the
queue of the process. -/
def State.outstanding (s : State) (pid : Nat) : List CallId :=
  (s.server.map Prod.fst ++ s.workers.map Worker.id).filter (fun id => id.pid = pid) ++
    (s.queues.under (qName pid)).map Prod.fst

theorem State.outstanding_withQueues (s : State) (queues : Queues Bytes (CallId × Response))
    (pid : Nat) : (s.withQueues queues).outstanding pid =
      (s.server.map Prod.fst ++ s.workers.map Worker.id).filter (fun id => id.pid = pid) ++
        (queues.under (qName pid)).map Prod.fst := rfl

def QueueCall.sends : QueueCall → Bool
  | .send _ => true
  | _ => false

/-- The step in which a call sends its request. -/
def sends (s : State) : Event → Bool
  | .run pid true => (s.process pid).rest.action?.any QueueCall.sends
  | _ => false

/-- When a call sends its request, no request of its process is outstanding. -/
def Settled (s : State) : Event → Prop
  | .run pid ok => sends s (.run pid ok) → s.outstanding pid = []
  | _ => True

instance (s : State) : DecidablePred (Settled s)
  | .run _ _ => inferInstanceAs (Decidable (_ → _))
  | .begin _ _ _ => isTrue trivial
  | .take => isTrue trivial
  | .openQueue _ _ => isTrue trivial
  | .answer _ _ => isTrue trivial

/-! ## What is left of a call -/

/-- Where a call is, by what is left of it, with the outstanding requests of its process and the
queue that the name of the process stands for. -/
inductive Stage (out : List CallId) (queue : Option Nat) (id : CallId) : Call → Prop
  | ended (result : Returned) : Stage out queue id (.done result)
  | opening {req : Message} (finish : Response → Returned) (hname : req.qName = qName id.pid)
      (hold : ∀ x ∈ out, x.number < id.number) : Stage out queue id (exchange req finish)
  | connecting {req : Message} {qClient : Nat} (finish : Response → Returned)
      (hname : req.qName = qName id.pid) (hqueue : queue = some qClient)
      (hold : ∀ x ∈ out, x.number < id.number) :
      Stage out queue id (.call .openServer (connected req qClient finish))
  | sending {req : Message} {qClient : Nat} (finish : Response → Returned)
      (hname : req.qName = qName id.pid) (hqueue : queue = some qClient)
      (hold : ∀ x ∈ out, x.number < id.number) :
      Stage out queue id (.call (.send req) (sent req qClient finish))
  | receiving {req : Message} {qClient : Nat} (finish : Response → Returned)
      (hname : req.qName = qName id.pid) (hqueue : queue = some qClient)
      (hown : ∀ x ∈ out, x = id) :
      Stage out queue id (.call (.receive qClient) (received req qClient finish))
  | closingServer {req : Message} (qClient : Nat) (finish : Response → Returned)
      (response : Response) (hname : req.qName = qName id.pid) (hnone : out = []) :
      Stage out queue id (.call .closeServer fun _ => closing req qClient finish response)
  | closingClient {req : Message} (qClient : Nat) (finish : Response → Returned)
      (response : Response) (hname : req.qName = qName id.pid) (hnone : out = []) :
      Stage out queue id (closing req qClient finish response)
  | unlinking {req : Message} (finish : Response → Returned) (response : Response)
      (hname : req.qName = qName id.pid) (hnone : out = []) :
      Stage out queue id (.call (.unlink req.qName) (unlinked finish response))

namespace Stage

variable {out out' : List CallId} {queue : Option Nat} {id : CallId} {rest : Call}

/-- A call stays where it is when requests of its process are answered or lost. -/
theorem mono (h : Stage out queue id rest) (hsub : out' <+~ out) : Stage out' queue id rest := by
  cases h with
  | ended result => exact .ended result
  | opening finish hname hold => exact .opening finish hname fun x hx => hold x (hsub.subset hx)
  | connecting finish hname hqueue hold =>
    exact .connecting finish hname hqueue fun x hx => hold x (hsub.subset hx)
  | sending finish hname hqueue hold =>
    exact .sending finish hname hqueue fun x hx => hold x (hsub.subset hx)
  | receiving finish hname hqueue hown =>
    exact .receiving finish hname hqueue fun x hx => hown x (hsub.subset hx)
  | closingServer qClient finish response hname hnone =>
    exact .closingServer qClient finish response hname (List.subperm_nil.1 (hnone ▸ hsub))
  | closingClient qClient finish response hname hnone =>
    exact .closingClient qClient finish response hname (List.subperm_nil.1 (hnone ▸ hsub))
  | unlinking finish response hname hnone =>
    exact .unlinking finish response hname (List.subperm_nil.1 (hnone ▸ hsub))

theorem failed : Stage out queue id failed := .ended _

/-- A call of the library is refused at once or begins its exchange. -/
theorem call {pid calls : Nat} (req : Request) (service : Service)
    (hold : ∀ x ∈ out, x.number ≤ calls) :
    Stage out queue ⟨pid, calls + 1⟩ (call pid req service) := by
  unfold Client.call
  split
  · exact failed
  · exact .opening _ rfl fun x hx => Nat.lt_succ_of_le (hold x hx)

end Stage

/-! ## The invariant -/

/-- What holds while every request is sent at a settled moment. -/
structure Inv (s : State) : Prop where
  server : ∀ x ∈ s.server, x.2.qName = qName x.1.pid
  workers : ∀ w ∈ s.workers, w.req.qName = qName w.id.pid
  opened : ∀ w ∈ s.workers, ∀ qClient, w.qClient = some qClient →
    s.queues.named (qName w.id.pid) = some qClient
  one : ∀ pid, (s.outstanding pid).length ≤ 1
  numbers : ∀ pid, ∀ id ∈ s.outstanding pid, id.number ≤ (s.process pid).calls
  stage : ∀ pid, Stage (s.outstanding pid) (s.queues.named (qName pid))
    ⟨pid, (s.process pid).calls⟩ (s.process pid).rest

/-- The requests with the server. -/
theorem mem_outstanding_of_server {s : State} {id : CallId}
    (h : id ∈ s.server.map Prod.fst ++ s.workers.map Worker.id) : id ∈ s.outstanding id.pid :=
  List.mem_append_left _ (List.mem_filter.2 ⟨h, by simp⟩)

/-- A thread among the others. -/
theorem perm_ids {workers : List Worker} {i : Nat} {w : Worker} (h : workers[i]? = some w) :
    workers.map Worker.id ~ w.id :: (workers.eraseIdx i).map Worker.id := by
  obtain ⟨hi, rfl⟩ := List.getElem?_eq_some_iff.1 h
  exact ((List.getElem_cons_eraseIdx_perm hi).map Worker.id).symm

namespace Inv

variable {s : State}

theorem init : Inv start where
  server _ h := absurd h List.not_mem_nil
  workers _ h := absurd h List.not_mem_nil
  opened _ h := absurd h List.not_mem_nil
  one _ := Nat.zero_le _
  numbers _ _ h := absurd h List.not_mem_nil
  stage _ := .ended _

/-! ### The server -/

/-- A step of the server loses no more than requests and answers. -/
theorem server_step (h : Inv s) {s' : State} (hserver : ∀ x ∈ s'.server, x ∈ s.server)
    (hworkers : ∀ w ∈ s'.workers, w.req.qName = qName w.id.pid ∧
      ∀ qClient, w.qClient = some qClient → s.queues.named (qName w.id.pid) = some qClient)
    (hnamed : s'.queues.named = s.queues.named) (hprocess : s'.process = s.process)
    (hout : ∀ pid, s'.outstanding pid <+~ s.outstanding pid) : Inv s' where
  server x hx := h.server x (hserver x hx)
  workers w hw := (hworkers w hw).1
  opened w hw qClient hq := hnamed ▸ (hworkers w hw).2 qClient hq
  one pid := (hout pid).length_le.trans (h.one pid)
  numbers pid id hid := hprocess ▸ h.numbers pid id ((hout pid).subset hid)
  stage pid := by
    rw [hnamed, hprocess]
    exact (h.stage pid).mono (hout pid)

/-- A thread that is gone. -/
theorem erase_worker (h : Inv s) (i : Nat) : Inv { s with workers := s.workers.eraseIdx i } := by
  refine h.server_step (fun x hx => hx) (fun w hw => ?_) rfl rfl fun pid => ?_
  · have hw := List.mem_of_mem_eraseIdx hw
    exact ⟨h.workers w hw, h.opened w hw⟩
  · have hsub : ((s.workers.eraseIdx i).map Worker.id).Sublist (s.workers.map Worker.id) :=
      (List.eraseIdx_sublist _ _).map _
    exact (((hsub.append_left _).filter _).append_right _).subperm

theorem take (h : Inv s) {id : CallId} {req : Message} {server : List (CallId × Message)}
    (hs : s.server = (id, req) :: server) :
    Inv { s with server := server, workers := s.workers ++ [⟨id, req, none⟩] } := by
  refine h.server_step (fun x hx => hs ▸ List.mem_cons_of_mem _ hx) (fun w hw => ?_) rfl rfl
    fun pid => ?_
  · rcases List.mem_append.1 hw with hw | hw
    · exact ⟨h.workers w hw, h.opened w hw⟩
    · obtain rfl := List.mem_singleton.1 hw
      exact ⟨h.server (id, req) (hs ▸ List.mem_cons_self), fun _ hq => by cases hq⟩
  · have hperm : server.map Prod.fst ++ (s.workers ++ [(⟨id, req, none⟩ : Worker)]).map Worker.id ~
        s.server.map Prod.fst ++ s.workers.map Worker.id := by
      rw [hs, List.map_append, ← List.append_assoc]
      exact List.perm_append_comm
    exact ((hperm.filter _).append_right _).subperm

theorem open_queue (h : Inv s) {i qClient : Nat} {id : CallId} {req : Message}
    (hw : s.workers[i]? = some ⟨id, req, none⟩)
    (hq : s.queues.openExisting req.qName = some qClient) :
    Inv { s with workers := s.workers.set i ⟨id, req, some qClient⟩ } := by
  have hroute : req.qName = qName id.pid := h.workers ⟨id, req, none⟩ (List.mem_of_getElem? hw)
  refine h.server_step (fun x hx => hx) (fun w hw => ?_) rfl rfl fun pid => ?_
  · rcases List.mem_or_eq_of_mem_set hw with hw | rfl
    · exact ⟨h.workers w hw, h.opened w hw⟩
    · refine ⟨hroute, fun qClient' hq' => ?_⟩
      obtain rfl : qClient = qClient' := Option.some.inj hq'
      exact hroute ▸ hq
  · have hset : (s.workers.set i ⟨id, req, some qClient⟩).map Worker.id ~
        s.workers.map Worker.id :=
      ((List.set_perm_cons_eraseIdx (List.getElem?_eq_some_iff.1 hw).1 _).map Worker.id).trans
        (perm_ids hw).symm
    exact (((hset.append_left _).filter _).append_right _).subperm

/-- An answer goes into the queue of the process whose request it answers. -/
theorem answer (h : Inv s) {i qClient : Nat} {id : CallId} {req : Message} {response : Response}
    {queues : Queues Bytes (CallId × Response)}
    (hw : s.workers[i]? = some ⟨id, req, some qClient⟩)
    (hs : s.queues.send clientMaxmsg qClient (id, response) = some queues) :
    Inv { s with queues := queues, workers := s.workers.eraseIdx i } := by
  have hnamed : s.queues.named (qName id.pid) = some qClient :=
    h.opened ⟨id, req, some qClient⟩ (List.mem_of_getElem? hw) qClient rfl
  refine h.server_step (fun x hx => hx) (fun w hw => ?_) (Queues.named_send hs) rfl fun pid => ?_
  · have hw := List.mem_of_mem_eraseIdx hw
    exact ⟨h.workers w hw, h.opened w hw⟩
  · by_cases hpid : id.pid = pid
    · subst hpid
      refine List.Perm.subperm ?_
      have hids := ((perm_ids hw).append_left (s.server.map Prod.fst)).trans List.perm_middle
      have hfilter := hids.filter fun x => decide (x.pid = id.pid)
      rw [List.filter_cons_of_pos (by simp)] at hfilter
      unfold State.outstanding
      rw [Queues.under_send_self hs hnamed, List.map_append, ← List.append_assoc]
      exact List.perm_append_comm.trans (hfilter.symm.append_right _)
    · unfold State.outstanding
      rw [Queues.under_send_of_ne hs hnamed (qName_ne (Ne.symm hpid))]
      have hsub : ((s.workers.eraseIdx i).map Worker.id).Sublist (s.workers.map Worker.id) :=
        (List.eraseIdx_sublist _ _).map _
      exact (((hsub.append_left _).filter _).append_right _).subperm

/-! ### The processes -/

/-- A step of one process. What it does to the queues and to the server's queue does not show in
those of the others. -/
theorem process_step (h : Inv s) {s' : State} {pid : Nat} {p : Process}
    (hserver : ∀ x ∈ s'.server, x.2.qName = qName x.1.pid) (hworkers : s'.workers = s.workers)
    (hopened : ∀ w ∈ s.workers, ∀ qClient, s.queues.named (qName w.id.pid) = some qClient →
      s'.queues.named (qName w.id.pid) = some qClient)
    (hprocess : s'.process = s.process)
    (hothers : ∀ pid', pid' ≠ pid → s'.queues.named (qName pid') = s.queues.named (qName pid') ∧
      s'.outstanding pid' = s.outstanding pid')
    (hone : (s'.outstanding pid).length ≤ 1)
    (hnumbers : ∀ id ∈ s'.outstanding pid, id.number ≤ p.calls)
    (hstage : Stage (s'.outstanding pid) (s'.queues.named (qName pid)) ⟨pid, p.calls⟩ p.rest) :
    Inv (s'.setProcess pid p) where
  server := hserver
  workers w hw := h.workers w (hworkers ▸ hw)
  opened w hw qClient hq := by
    have hw : w ∈ s.workers := hworkers ▸ hw
    exact hopened w hw qClient (h.opened w hw qClient hq)
  one pid' := by
    by_cases hpid : pid' = pid
    · exact hpid ▸ hone
    · exact (hothers pid' hpid).2 ▸ h.one pid'
  numbers pid' id hid := by
    by_cases hpid : pid' = pid
    · subst hpid
      rw [State.process_setProcess_self]
      exact hnumbers id hid
    · rw [State.process_setProcess_of_ne _ hpid, hprocess]
      exact h.numbers pid' id ((hothers pid' hpid).2 ▸ hid)
  stage pid' := by
    by_cases hpid : pid' = pid
    · subst hpid
      rw [State.process_setProcess_self]
      exact hstage
    · have hsame := h.stage pid'
      rw [← (hothers pid' hpid).1, ← (hothers pid' hpid).2] at hsame
      rw [State.process_setProcess_of_ne _ hpid, hprocess]
      exact hsame

/-- A step that touches no queue. -/
theorem quiet (h : Inv s) {pid : Nat} {p : Process} (hcalls : (s.process pid).calls ≤ p.calls)
    (hstage : Stage (s.outstanding pid) (s.queues.named (qName pid)) ⟨pid, p.calls⟩ p.rest) :
    Inv (s.setProcess pid p) :=
  h.process_step h.server rfl (fun _ _ _ hq => hq) rfl (fun _ _ => ⟨rfl, rfl⟩) (h.one pid)
    (fun id hid => (h.numbers pid id hid).trans hcalls) hstage

theorem opened_client (h : Inv s) {pid : Nat} {req : Message} (finish : Response → Returned)
    (hname : req.qName = qName pid)
    (hold : ∀ x ∈ s.outstanding pid, x.number < (s.process pid).calls) :
    Inv ((s.withQueues (s.queues.openCreate req.qName).2).setProcess pid ⟨(s.process pid).calls,
      Client.opened req finish (some (s.queues.openCreate req.qName).1)⟩) := by
  have hout : ∀ pid', (s.withQueues (s.queues.openCreate req.qName).2).outstanding pid' =
      s.outstanding pid' := by
    intro pid'
    rw [State.outstanding_withQueues, Queues.under_openCreate]
    rfl
  refine h.process_step h.server rfl (fun w _ qClient hq => Queues.named_openCreate hq) rfl
    (fun pid' hpid => ⟨?_, hout pid'⟩) (hout pid ▸ h.one pid)
    (fun id hid => h.numbers pid id (hout pid ▸ hid)) ?_
  · exact Queues.named_openCreate_of_ne (hname ▸ qName_ne hpid)
  · rw [hout pid]
    refine .connecting finish hname ?_ hold
    rw [← hname]
    exact Queues.named_openCreate_self

/-- The request goes to the server while nothing is outstanding. -/
theorem sent_request (h : Inv s) {pid qClient : Nat} {req : Message} (finish : Response → Returned)
    (hname : req.qName = qName pid) (hqueue : s.queues.named (qName pid) = some qClient)
    (hnone : s.outstanding pid = []) :
    Inv ((s.enqueue ⟨pid, (s.process pid).calls⟩ req).setProcess pid
      ⟨(s.process pid).calls, sent req qClient finish true⟩) := by
  have hout : (s.enqueue ⟨pid, (s.process pid).calls⟩ req).outstanding pid =
      [⟨pid, (s.process pid).calls⟩] := by
    simp only [State.outstanding, State.enqueue, List.append_eq_nil_iff, List.map_append,
      List.filter_append] at hnone ⊢
    simp [hnone]
  refine h.process_step (fun x hx => ?_) rfl (fun _ _ _ hq => hq) rfl
    (fun pid' hpid => ⟨rfl, ?_⟩) (by rw [hout]; exact Nat.le_refl _) (fun id hid => ?_) ?_
  · rcases List.mem_append.1 hx with hx | hx
    · exact h.server x hx
    · obtain rfl := List.mem_singleton.1 hx
      exact hname
  · simp [State.outstanding, State.enqueue, List.filter_append, Ne.symm hpid]
  · rw [hout] at hid
    rw [List.mem_singleton.1 hid]
  · rw [hout]
    exact .receiving finish hname hqueue fun x hx => List.mem_singleton.1 hx

/-- **A response that is received answers the request of the call.** -/
theorem received_own {pid qClient : Nat} {queues : Queues Bytes (CallId × Response)}
    {m : CallId × Response} (hqueue : s.queues.named (qName pid) = some qClient)
    (hown : ∀ x ∈ s.outstanding pid, x = ⟨pid, (s.process pid).calls⟩)
    (hr : s.queues.receive qClient = some (m, queues)) :
    m.1 = ⟨pid, (s.process pid).calls⟩ := by
  apply hown
  unfold State.outstanding
  rw [Queues.under_receive_self hr hqueue]
  exact List.mem_append_right _ List.mem_cons_self

theorem received_answer (h : Inv s) {pid qClient : Nat} {req : Message}
    {queues : Queues Bytes (CallId × Response)} {m : CallId × Response}
    (finish : Response → Returned) (hname : req.qName = qName pid)
    (hqueue : s.queues.named (qName pid) = some qClient)
    (hr : s.queues.receive qClient = some (m, queues)) :
    Inv ((s.withQueues queues).setProcess pid
      ⟨(s.process pid).calls, received req qClient finish (some m.2)⟩) := by
  have hout : (s.withQueues queues).outstanding pid = [] := by
    have hone := h.one pid
    rw [State.outstanding, Queues.under_receive_self hr hqueue, List.map_cons, List.length_append,
      List.length_cons] at hone
    apply List.eq_nil_of_length_eq_zero
    rw [State.outstanding_withQueues, List.length_append]
    omega
  refine h.process_step h.server rfl
    (fun _ _ _ hq => by rw [State.queues_withQueues, Queues.named_receive hr, hq]) rfl
    (fun pid' hpid => ⟨congrFun (Queues.named_receive hr) _, ?_⟩)
    (by rw [hout]; exact Nat.zero_le _) (fun id hid => by rw [hout] at hid; cases hid) ?_
  · rw [State.outstanding_withQueues, Queues.under_receive_of_ne hr hqueue (qName_ne hpid)]
    rfl
  · rw [hout]
    exact .closingServer qClient finish m.2 hname rfl

theorem unlinked_queue (h : Inv s) {pid : Nat} {queues : Queues Bytes (CallId × Response)}
    {p : Process} (hcalls : p.calls = (s.process pid).calls) {result : Returned}
    (hrest : p.rest = .done result) (hnone : s.outstanding pid = [])
    (hu : s.queues.unlink (qName pid) = some queues) :
    Inv ((s.withQueues queues).setProcess pid p) := by
  have hout : (s.withQueues queues).outstanding pid = [] := by
    rw [State.outstanding_withQueues, Queues.under_unlink_self hu,
      (List.append_eq_nil_iff.1 hnone).1]
    rfl
  refine h.process_step h.server rfl (fun w hw qClient hq => ?_) rfl
    (fun pid' hpid => ⟨Queues.named_unlink hu (qName_ne hpid), ?_⟩)
    (by rw [hout]; exact Nat.zero_le _) (fun id hid => by rw [hout] at hid; cases hid) ?_
  · -- no thread has opened the queue whose name goes
    have hpid : w.id.pid ≠ pid := by
      rintro rfl
      have hmem := mem_outstanding_of_server
        (List.mem_append_right (s.server.map Prod.fst) (List.mem_map_of_mem hw))
      rw [hnone] at hmem
      cases hmem
    rw [State.queues_withQueues, Queues.named_unlink hu (qName_ne hpid), hq]
  · rw [State.outstanding_withQueues, Queues.under_unlink_of_ne hu (qName_ne hpid)]
    rfl
  · rw [hrest]
    exact .ended _

/-! ### One step -/

/-- A call that fails changes nothing but what is left of its exchange. -/
theorem run_false (h : Inv s) {pid : Nat} {s' : State} (hs : Step s (.run pid false) s') :
    Inv s' := by
  have hstage := h.stage pid
  unfold Step next at hs
  dsimp only at hs
  generalize (s.process pid).rest = rest at hstage hs
  cases hstage with
  | ended result => cases hs
  | opening finish hname hold =>
    obtain rfl := Option.some.inj hs
    exact h.quiet (Nat.le_refl _) .failed
  | connecting finish hname hqueue hold =>
    obtain rfl := Option.some.inj hs
    exact h.quiet (Nat.le_refl _) .failed
  | sending finish hname hqueue hold =>
    obtain rfl := Option.some.inj hs
    exact h.quiet (Nat.le_refl _) .failed
  | receiving finish hname hqueue hown =>
    obtain rfl := Option.some.inj hs
    exact h.quiet (Nat.le_refl _) .failed
  | closingServer qClient finish response hname hnone =>
    obtain rfl := Option.some.inj hs
    exact h.quiet (Nat.le_refl _) (.closingClient qClient finish response hname hnone)
  | closingClient qClient finish response hname hnone =>
    obtain rfl := Option.some.inj hs
    exact h.quiet (Nat.le_refl _) (.unlinking finish response hname hnone)
  | @unlinking req finish response hname hnone =>
    simp only [perform] at hs
    cases hu : s.queues.unlink req.qName with
    | none =>
      rw [hu] at hs
      obtain rfl := Option.some.inj hs
      exact h.quiet (Nat.le_refl _) .failed
    | some queues =>
      rw [hu] at hs
      obtain rfl := Option.some.inj hs
      exact h.quiet (Nat.le_refl _) .failed

theorem run_true (h : Inv s) {pid : Nat} {s' : State} (hG : Settled s (.run pid true))
    (hs : Step s (.run pid true) s') : Inv s' ∧ ∀ r ∈ receives s (.run pid true), r.1 = r.2 := by
  have hstage := h.stage pid
  unfold Step next at hs
  unfold Settled sends at hG
  unfold receives
  dsimp only at hs hG ⊢
  generalize (s.process pid).rest = rest at hstage hs hG ⊢
  have hother : ∀ r ∈ (none : Option (CallId × CallId)), r.1 = r.2 := fun _ hr => by cases hr
  cases hstage with
  | ended result => cases hs
  | opening finish hname hold =>
    obtain rfl := Option.some.inj hs
    exact ⟨h.opened_client finish hname hold, hother⟩
  | connecting finish hname hqueue hold =>
    obtain rfl := Option.some.inj hs
    exact ⟨h.quiet (Nat.le_refl _) (.sending finish hname hqueue hold), hother⟩
  | sending finish hname hqueue hold =>
    simp only [perform, if_true] at hs
    split at hs
    · obtain rfl := Option.some.inj hs
      exact ⟨h.sent_request finish hname hqueue (hG rfl), hother⟩
    · cases hs
  | @receiving req qClient finish hname hqueue hown =>
    simp only [perform, if_true] at hs
    cases hr : s.queues.receive qClient with
    | none =>
      rw [hr] at hs
      cases hs
    | some x =>
      obtain ⟨m, queues⟩ := x
      rw [hr] at hs
      obtain rfl := Option.some.inj hs
      refine ⟨h.received_answer finish hname hqueue hr, fun r hmem => ?_⟩
      obtain ⟨rest, hcontents, -⟩ := Queues.contents_receive hr
      simp only [hcontents, List.head?_cons, Option.map_some, Option.mem_some] at hmem
      rw [← hmem]
      exact (received_own hqueue hown hr).symm
  | closingServer qClient finish response hname hnone =>
    obtain rfl := Option.some.inj hs
    exact ⟨h.quiet (Nat.le_refl _) (.closingClient qClient finish response hname hnone), hother⟩
  | closingClient qClient finish response hname hnone =>
    obtain rfl := Option.some.inj hs
    exact ⟨h.quiet (Nat.le_refl _) (.unlinking finish response hname hnone), hother⟩
  | @unlinking req finish response hname hnone =>
    simp only [perform, if_true] at hs
    cases hu : s.queues.unlink req.qName with
    | none =>
      rw [hu] at hs
      obtain rfl := Option.some.inj hs
      exact ⟨h.quiet (Nat.le_refl _) .failed, hother⟩
    | some queues =>
      rw [hu] at hs
      obtain rfl := Option.some.inj hs
      exact ⟨h.unlinked_queue rfl rfl hnone (hname ▸ hu), hother⟩

theorem step (h : Inv s) {e : Event} {s' : State} (hG : Settled s e) (hs : Step s e s') :
    Inv s' ∧ ∀ r ∈ receives s e, r.1 = r.2 := by
  have hother : ∀ r ∈ (none : Option (CallId × CallId)), r.1 = r.2 := fun _ hr => by cases hr
  cases e with
  | run pid ok =>
    cases ok with
    | false => exact ⟨h.run_false hs, hother⟩
    | true => exact h.run_true hG hs
  | begin pid req service =>
    refine ⟨?_, hother⟩
    unfold Step next at hs
    dsimp only at hs
    split at hs
    · obtain rfl := Option.some.inj hs
      exact h.quiet (Nat.le_succ _) (.call req service (h.numbers pid))
    · cases hs
  | take =>
    refine ⟨?_, hother⟩
    unfold Step next at hs
    dsimp only at hs
    split at hs
    · cases hs
    · rename_i id req server hserver
      obtain rfl := Option.some.inj hs
      exact h.take hserver
  | openQueue i ok =>
    refine ⟨?_, hother⟩
    unfold Step next at hs
    dsimp only at hs
    split at hs
    · rename_i id req hw
      split at hs
      · rename_i qClient hq
        split at hs
        · obtain rfl := Option.some.inj hs
          exact h.open_queue hw hq
        · obtain rfl := Option.some.inj hs
          exact h.erase_worker i
      · obtain rfl := Option.some.inj hs
        exact h.erase_worker i
    · cases hs
  | answer i response =>
    refine ⟨?_, hother⟩
    unfold Step next at hs
    dsimp only at hs
    split at hs
    · rename_i id req qClient hw
      split at hs
      · rename_i response
        obtain ⟨queues, hq, rfl⟩ := Option.map_eq_some_iff.1 hs
        exact h.answer hw hq
      · obtain rfl := Option.some.inj hs
        exact h.erase_worker i
    · cases hs

end Inv

end DistributedSystems.Exercise1.Client
