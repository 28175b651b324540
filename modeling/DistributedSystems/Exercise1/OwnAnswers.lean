import DistributedSystems.Exercise1.Outstanding

/-!
# Whose answer a call receives (`Exercise1/array.c`)

In a run of settled steps every call receives the answer to its own request. A step that is not
settled leaves the run in a state from which the server can have a call receive another answer
(`Misdelivers`), so the condition cannot be weakened.
-/

namespace DistributedSystems.Exercise1.Client

open Support

/-- No request is sent in these steps. -/
def NoneSent (steps : List (State × Event)) : Prop :=
  Guarded (fun s e => sends s e = false) steps

theorem NoneSent.settled {steps : List (State × Event)} (h : NoneSent steps) :
    Guarded Settled steps := by
  intro x hx
  obtain ⟨s, e⟩ := x
  have hnot := h _ hx
  cases e with
  | run pid ok =>
    intro hsends
    rw [hsends] at hnot
    cases hnot
  | begin pid req service => trivial
  | take => trivial
  | openQueue i ok => trivial
  | answer i response => trivial

theorem OwnAnswers.append {steps steps' : List (State × Event)} (h : OwnAnswers steps)
    (h' : OwnAnswers steps') : OwnAnswers (steps ++ steps') := fun x hx =>
  (List.mem_append.1 hx).elim (h x) (h' x)

theorem OwnAnswers.snoc {steps : List (State × Event)} {s : State} {e : Event}
    (h : OwnAnswers steps) (h' : ∀ r ∈ receives s e, r.1 = r.2) : OwnAnswers (steps ++ [(s, e)]) :=
  h.append fun x hx => by
    obtain rfl := List.mem_singleton.1 hx
    exact h'

/-! ## Late answers -/

/-- The run can go on, with no further request, until a call receives the answer to another
request. -/
def Misdelivers (s : State) : Prop :=
  ∃ steps s', Run Step s steps s' ∧ NoneSent steps ∧ ¬ OwnAnswers steps

namespace Misdelivers

variable {s s' : State} {pid qClient : Nat} {next : Option Response → Call} {id : CallId}

theorem of_step {e : Event} (hs : Step s e s') (he : sends s e = false) (h : Misdelivers s') :
    Misdelivers s := by
  obtain ⟨steps, s'', hr, hnone, hlost⟩ := h
  refine ⟨_, s'', hr.cons hs, ?_, fun hown => hlost fun x hx => hown x (List.mem_cons_of_mem _ hx)⟩
  intro x hx
  rcases List.mem_cons.1 hx with rfl | hx
  · exact he
  · exact hnone x hx

/-- The answer to another request is the next one in the queue. -/
theorem of_answered (hrest : (s.process pid).rest = .call (.receive qClient) next)
    {response : Response} {rest : List (CallId × Response)}
    (hqueue : s.queues.contents qClient = (id, response) :: rest)
    (hne : id ≠ ⟨pid, (s.process pid).calls⟩) : Misdelivers s := by
  have hreceives : receives s (.run pid true) = some (⟨pid, (s.process pid).calls⟩, id) := by
    simp [receives, hrest, hqueue]
  obtain ⟨queues, hr⟩ : ∃ queues, s.queues.receive qClient = some ((id, response), queues) := by
    simp [Queues.receive, hqueue]
  have hstep : ∃ s', Step s (.run pid true) s' := by
    simp [Step, Client.next, hrest, perform, hr]
  obtain ⟨s', hs⟩ := hstep
  refine ⟨_, s', Run.nil.snoc hs, fun x hx => ?_, fun hown => hne ?_⟩
  · obtain rfl := List.mem_singleton.1 hx
    simp [sends, hrest, Program.action?, QueueCall.sends]
  · exact (hown _ List.mem_cons_self _ hreceives).symm

/-- A thread has opened the queue and answers another request. -/
theorem of_opened (hrest : (s.process pid).rest = .call (.receive qClient) next) {i : Nat}
    {req : Message} (hw : s.workers[i]? = some ⟨id, req, some qClient⟩)
    (hqueue : s.queues.contents qClient = []) (hne : id ≠ ⟨pid, (s.process pid).calls⟩) :
    Misdelivers s := by
  obtain ⟨queues, hs⟩ : ∃ queues, s.queues.send clientMaxmsg qClient (id, ⟨-1, none⟩) =
      some queues := by
    simp [Queues.send, hqueue, clientMaxmsg]
  have hcontents : queues.contents qClient = [(id, ⟨-1, none⟩)] := by
    rw [Queues.contents_send hs, Function.update_self, hqueue]
    rfl
  have hstep : Step s (.answer i (some ⟨-1, none⟩))
      { s with queues := queues, workers := s.workers.eraseIdx i } := by
    simp [Step, Client.next, hw, hs]
  exact of_step hstep rfl (of_answered hrest hcontents hne)

/-- A thread for another request is about to open the queue. -/
theorem of_taken (hrest : (s.process pid).rest = .call (.receive qClient) next) {i : Nat}
    {req : Message} (hw : s.workers[i]? = some ⟨id, req, none⟩)
    (hname : s.queues.named req.qName = some qClient) (hqueue : s.queues.contents qClient = [])
    (hne : id ≠ ⟨pid, (s.process pid).calls⟩) : Misdelivers s := by
  have hstep : Step s (.openQueue i true)
      { s with workers := s.workers.set i ⟨id, req, some qClient⟩ } := by
    simp [Step, Client.next, hw, Queues.openExisting, hname]
  have hset : (s.workers.set i ⟨id, req, some qClient⟩)[i]? = some ⟨id, req, some qClient⟩ :=
    List.getElem?_set_self (List.getElem?_eq_some_iff.1 hw).1
  exact of_step hstep rfl (of_opened hrest hset hqueue hne)

/-- Another request is in the server's queue. -/
theorem of_queued {before after : List (CallId × Message)} {req : Message}
    (hserver : s.server = before ++ (id, req) :: after)
    (hrest : (s.process pid).rest = .call (.receive qClient) next)
    (hname : s.queues.named req.qName = some qClient) (hqueue : s.queues.contents qClient = [])
    (hne : id ≠ ⟨pid, (s.process pid).calls⟩) : Misdelivers s := by
  induction before generalizing s with
  | nil =>
    have hstep : Step s .take
        { s with server := after, workers := s.workers ++ [⟨id, req, none⟩] } := by
      simp [Step, Client.next, hserver]
    exact of_step hstep rfl
      (of_taken (i := s.workers.length) hrest (by simp) hname hqueue hne)
  | cons x before ih =>
    have hstep : Step s .take { s with
        server := before ++ (id, req) :: after, workers := s.workers ++ [⟨x.1, x.2, none⟩] } := by
      simp [Step, Client.next, hserver]
    exact of_step hstep rfl (ih rfl hrest hname hqueue hne)

end Misdelivers

namespace Inv

variable {s s' : State} {e : Event} {steps : List (State × Event)}

/-- A request that is sent while another one is outstanding can be overtaken by the answer to
that, wherever it is. -/
theorem misdelivers_of_sent (h : Inv s) {pid qClient : Nat} {req : Message}
    (finish : Response → Returned) (hqueue : s.queues.named (qName pid) = some qClient)
    (hold : ∀ x ∈ s.outstanding pid, x.number < (s.process pid).calls)
    (hout : s.outstanding pid ≠ []) :
    Misdelivers ((s.enqueue ⟨pid, (s.process pid).calls⟩ req).setProcess pid
      ⟨(s.process pid).calls, sent req qClient finish true⟩) := by
  generalize hs' : (s.enqueue ⟨pid, (s.process pid).calls⟩ req).setProcess pid
    ⟨(s.process pid).calls, sent req qClient finish true⟩ = s'
  have hprocess : s'.process pid =
      ⟨(s.process pid).calls, .call (.receive qClient) (received req qClient finish)⟩ := by
    rw [← hs', State.process_setProcess_self]
    rfl
  have hrest : (s'.process pid).rest = .call (.receive qClient) (received req qClient finish) := by
    rw [hprocess]
  have hne : ∀ x ∈ s.outstanding pid, x ≠ ⟨pid, (s'.process pid).calls⟩ := by
    rintro x hx rfl
    rw [hprocess] at hx
    exact Nat.lt_irrefl _ (hold _ hx)
  have hunder : s.queues.under (qName pid) = s.queues.contents qClient :=
    Queues.under_of_named hqueue
  have hserver : s'.server = s.server ++ [((⟨pid, (s.process pid).calls⟩ : CallId), req)] := by
    rw [← hs']
    rfl
  have hworkers : s'.workers = s.workers := by rw [← hs']; rfl
  have hqueues : s'.queues = s.queues := by rw [← hs']; rfl
  cases hcontents : s.queues.contents qClient with
  | cons m rest =>
    have hm : m.1 ∈ s.outstanding pid := by
      unfold State.outstanding
      rw [hunder, hcontents]
      exact List.mem_append_right _ List.mem_cons_self
    exact .of_answered hrest (hqueues ▸ hcontents) (hne _ hm)
  | nil =>
    obtain ⟨x, hx⟩ := List.exists_mem_of_ne_nil _ hout
    have hx' := hx
    unfold State.outstanding at hx'
    rw [hunder, hcontents, List.map_nil, List.append_nil, List.mem_filter, List.mem_append] at hx'
    obtain ⟨hmem, hpid⟩ := hx'
    have hname : s'.queues.named (qName x.pid) = some qClient := by
      rw [of_decide_eq_true hpid, hqueues, hqueue]
    have hempty : s'.queues.contents qClient = [] := by rw [hqueues, hcontents]
    rcases hmem with hmem | hmem
    · obtain ⟨⟨id, req'⟩, hqueued, rfl⟩ := List.mem_map.1 hmem
      obtain ⟨before, after, hsplit⟩ := List.append_of_mem hqueued
      have hroute : req'.qName = qName id.pid := h.server (id, req') hqueued
      have hqueue' : s'.server = before ++ (id, req') ::
          (after ++ [((⟨pid, (s.process pid).calls⟩ : CallId), req)]) := by
        rw [hserver, hsplit, List.append_assoc, List.cons_append]
      exact .of_queued hqueue' hrest (hroute ▸ hname) hempty (hne _ hx)
    · obtain ⟨⟨id, req', opened⟩, hworker, rfl⟩ := List.mem_map.1 hmem
      obtain ⟨i, hi⟩ := List.mem_iff_getElem?.1 hworker
      have hroute : req'.qName = qName id.pid := h.workers ⟨id, req', opened⟩ hworker
      cases opened with
      | none => exact .of_taken hrest (hworkers ▸ hi) (hroute ▸ hname) hempty (hne _ hx)
      | some fd =>
        have hfd := h.opened _ hworker fd rfl
        rw [← hqueues, hname] at hfd
        obtain rfl := Option.some.inj hfd
        exact .of_opened hrest (hworkers ▸ hi) hempty (hne _ hx)

theorem misdelivers (h : Inv s) (hs : Step s e s') (hbad : ¬ Settled s e) : Misdelivers s' := by
  cases e with
  | run pid ok =>
    obtain ⟨hsends, hout⟩ := Classical.not_imp.1 hbad
    cases ok with
    | false => cases hsends
    | true =>
      have hstage := h.stage pid
      unfold Step Client.next at hs
      unfold sends at hsends
      dsimp only at hs hsends
      generalize (s.process pid).rest = rest at hstage hs hsends
      cases hstage with
      | @sending req qClient finish hname hqueue hold =>
        simp only [perform, if_true] at hs
        split at hs
        · obtain rfl := Option.some.inj hs
          exact h.misdelivers_of_sent finish hqueue hold hout
        · cases hs
      | _ => cases hsends
  | _ => exact absurd trivial hbad

theorem ownAnswers (h : Inv s) (hr : Run Step s steps s') (hG : Guarded Settled steps) :
    Inv s' ∧ OwnAnswers steps := by
  refine hr.history_of_guard (I := fun steps s => Inv s ∧ OwnAnswers steps)
    ⟨h, fun x hx => absurd hx List.not_mem_nil⟩ (fun steps s e s' hI hG hs => ?_) hG
  obtain ⟨hinv, hown⟩ := hI.1.step hG hs
  exact ⟨hinv, hI.2.snoc hown⟩

end Inv

/-- However the run goes on without a further request, every response that a call receives answers
the request of that call. -/
def Answered (steps : List (State × Event)) (s : State) : Prop :=
  ∀ more s', Run Step s more s' → NoneSent more → OwnAnswers (steps ++ more)

/-- **A call receives the answer to its own request** in every run whose requests are all sent at
settled moments. After one that is not, the server can answer so that some call does not. -/
theorem ownAnswers_iff {steps : List (State × Event)} {s : State} (h : Run Step start steps s) :
    (Guarded Settled steps → OwnAnswers steps) ∧
      ((∀ steps' s', steps' <+: steps → Run Step start steps' s' → Answered steps' s') ↔
        Guarded Settled steps) := by
  refine ⟨fun hG => (Inv.init.ownAnswers h hG).2, ?_⟩
  refine h.forall_prefix_iff (I := fun steps s => Inv s ∧ OwnAnswers steps)
    ⟨Inv.init, fun x hx => absurd hx List.not_mem_nil⟩ ?_ ?_ ?_
  · rintro steps s ⟨hinv, hown⟩ more s' hr hnone
    exact hown.append (hinv.ownAnswers hr hnone.settled).2
  · rintro steps s e s' ⟨hinv, hown⟩ hG hs
    obtain ⟨hinv', hown'⟩ := hinv.step hG hs
    exact ⟨hinv', hown.snoc hown'⟩
  · rintro steps s e s' ⟨hinv, -⟩ hs hanswered
    by_contra hbad
    obtain ⟨more, s'', hr, hnone, hlost⟩ := hinv.misdelivers hs hbad
    exact hlost fun x hx => hanswered more s'' hr hnone x (List.mem_append_right _ hx)

/-- A process begins a call and comes to its request. -/
def request (service : Service) : List Event :=
  [.begin 42 ⟨0, [], 0, 0⟩ service, .run 42 true, .run 42 true, .run 42 true]

/-- The server answers the request with 1. -/
def served : List Event := [.take, .openQueue 0 true, .answer 0 (some ⟨1, none⟩)]

def initV1 : Service := .init [118, 49] 1

/-- A call that fails to send its request leaves nothing behind that the next one could receive. -/
theorem initV1_answered :
    ∃ steps s, Run Step start steps s ∧ OwnAnswers steps ∧
      ∃ x ∈ steps, receives x.1 x.2 = some (⟨42, 2⟩, ⟨42, 2⟩) := by
  obtain ⟨steps, s, hr, hG, hreceives⟩ : ∃ steps s, Run Step start steps s ∧
      Guarded Settled steps ∧ ∃ x ∈ steps, receives x.1 x.2 = some (⟨42, 2⟩, ⟨42, 2⟩) :=
    Run.exists_of_replay
      ((request initV1).dropLast ++ [.run 42 false] ++ request initV1 ++ served ++ [.run 42 true])
      (by decide)
  exact ⟨steps, s, hr, (ownAnswers_iff hr).1 hG, hreceives⟩

/-- The answer to a call that was interrupted at `mq_receive` comes late, and the next call of the
process receives it. -/
theorem initV1_overtaken :
    ∃ steps s, Run Step start steps s ∧ ¬ OwnAnswers steps ∧
      ∃ x ∈ steps, receives x.1 x.2 = some (⟨42, 2⟩, ⟨42, 1⟩) :=
  Run.exists_of_replay
    (request initV1 ++ [.run 42 false] ++ served ++ request (.get [118, 49] 0) ++ [.run 42 true])
    (by decide)

end DistributedSystems.Exercise1.Client
