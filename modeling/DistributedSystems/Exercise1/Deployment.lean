import DistributedSystems.Exercise1.Outstanding
import DistributedSystems.Exercise1.Linearized

/-!
# The vector service (`Exercise1/array.c` and `Exercise1/server.c`)

Any number of client processes with their queues, the server's queue and threads, and the vectors.
`function_selector` is one step here, as which it acts while requests are apart
(`vectorServer_linearizable`), with memory for all that it allocates. The queue operations of the
clients and of the threads may fail, but a request that `main` receives gets its thread; those that
are lost on the way are in `ReceiveLoop.lean`. A call that does not end with -1 returns what the map
promised when its request was served, which was once and while the call was on its way
(`calls_linearizable`).
-/

namespace DistributedSystems.Exercise1.Client

open Support

/-- With the calls that have begun, and the requests that have been served, in this order. -/
structure Deployment where
  clients : State
  memory : Memory
  begun : List (CallId × Service × Request)
  served : List (CallId × Request × Response)

def deployed : Deployment := ⟨start, initialMemory, [], []⟩

inductive Act
  | client (e : Event)
  /-- A thread of the server calls `function_selector`. -/
  | execute (i : Nat)
deriving DecidableEq

/-- A thread opens the client's queue after `function_selector`, and sends its response. -/
def Deployment.Allows (d : Deployment) : Event → Prop
  | .openQueue i _ => ∀ w ∈ d.clients.workers[i]?, w.id ∈ d.served.map Prod.fst
  | .answer i (some response) =>
    ∀ w ∈ d.clients.workers[i]?, (w.id, w.req.request, response) ∈ d.served
  | _ => True

instance (d : Deployment) : DecidablePred d.Allows
  | .begin _ _ _ => isTrue trivial
  | .run _ _ => isTrue trivial
  | .take => isTrue trivial
  | .openQueue _ _ => inferInstanceAs (Decidable (∀ w ∈ _, _))
  | .answer _ (some _) => inferInstanceAs (Decidable (∀ w ∈ _, _))
  | .answer _ none => isTrue trivial

/-- The calls that have begun after an event. -/
def Deployment.begins (d : Deployment) : Event → List (CallId × Service × Request)
  | .begin pid req service =>
    d.begun ++ [(⟨pid, (d.clients.process pid).calls + 1⟩, service, req)]
  | _ => d.begun

def Deployment.next (d : Deployment) : Act → Option Deployment
  | .client e =>
    if d.Allows e then
      (Client.next d.clients e).map fun clients => { d with clients, begun := d.begins e }
    else none
  | .execute i =>
    match d.clients.workers[i]? with
    | some ⟨id, req, none⟩ =>
      if id ∈ d.served.map Prod.fst then none
      else
        match serve allocating req.request d.memory with
        | (.ok response, memory) =>
          some { d with memory, served := d.served ++ [(id, req.request, response)] }
        | (.error _, _) => none
    | _ => none

def Acts (d : Deployment) (a : Act) (d' : Deployment) : Prop := d.next a = some d'

/-- Requests are sent at settled moments, and there are not too many vectors. -/
def SettledAct (d : Deployment) : Act → Prop
  | .client e => d.memory.storage.size < 2 ^ 30 ∧ Client.Settled d.clients e
  | .execute _ => d.memory.storage.size < 2 ^ 30

instance (d : Deployment) : DecidablePred (SettledAct d)
  | .client _ => inferInstanceAs (Decidable (_ ∧ _))
  | .execute _ => inferInstanceAs (Decidable (_ < _))

section Acts

variable {d d' : Deployment}

/-- What an event of the clients and queues does: it is one of theirs, and only the history of the
calls grows with it. -/
theorem Acts.client {e : Event} (h : Acts d (.client e) d') :
    ∃ clients, Step d.clients e clients ∧ d.Allows e ∧
      d' = { d with clients, begun := d.begins e } := by
  unfold Acts Deployment.next at h
  obtain ⟨hallows, h⟩ := Option.ite_none_right_eq_some.1 h
  obtain ⟨clients, hs, rfl⟩ := Option.map_eq_some_iff.1 h
  exact ⟨clients, hs, hallows, rfl⟩

/-- What `function_selector` does: the thread has a request that was not served before, which is
served on the memory as it is. -/
theorem Acts.execute {i : Nat} (h : Acts d (.execute i) d') :
    ∃ id req response memory, d.clients.workers[i]? = some ⟨id, req, none⟩ ∧
      id ∉ d.served.map Prod.fst ∧
      serve allocating req.request d.memory = (.ok response, memory) ∧
      d' = { d with memory, served := d.served ++ [(id, req.request, response)] } := by
  unfold Acts Deployment.next at h
  simp only at h
  split at h
  · rename_i id req hw
    obtain ⟨hnew, h⟩ := Option.ite_none_left_eq_some.1 h
    split at h
    · rename_i response memory hserve
      exact ⟨id, req, response, memory, hw, hnew, hserve, (Option.some.inj h).symm⟩
    · cases h
  · cases h

end Acts

/-! ## The calls -/

/-- The call has begun and asks for this. -/
def Asked (d : Deployment) (id : CallId) (request : Request) : Prop :=
  ∃ service req, (id, service, req) ∈ d.begun ∧ service.request req = some request

/-- What is left of an exchange before the response is there. -/
inductive Waiting (req : Message) (finish : Response → Returned) : Call → Prop
  | opening : Waiting req finish (exchange req finish)
  | connecting (qClient : Nat) :
      Waiting req finish (.call .openServer (connected req qClient finish))
  | sending (qClient : Nat) : Waiting req finish (.call (.send req) (sent req qClient finish))
  | receiving (qClient : Nat) :
      Waiting req finish (.call (.receive qClient) (received req qClient finish))

/-- What is left of an exchange with a response. -/
inductive Ending (req : Message) (finish : Response → Returned) (response : Response) : Call → Prop
  | closingServer (qClient : Nat) :
      Ending req finish response (.call .closeServer fun _ => closing req qClient finish response)
  | closingClient (qClient : Nat) : Ending req finish response (closing req qClient finish response)
  | unlinking : Ending req finish response (.call (.unlink req.qName) (unlinked finish response))
  | returned : Ending req finish response (.done (finish response))

/-- Where a call is. -/
inductive Phase (d : Deployment) (id : CallId) : Call → Prop
  | idle (result : Returned) (h0 : id.number = 0) : Phase d id (.done result)
  | failed : Phase d id failed
  | waiting {service : Service} {req request : Request} {rest : Call}
      (hb : (id, service, req) ∈ d.begun) (hreq : service.request req = some request)
      (h : Waiting ⟨request, qName id.pid⟩ (finish service) rest) : Phase d id rest
  | ending {service : Service} {req request : Request} {response : Response} {rest : Call}
      (hb : (id, service, req) ∈ d.begun) (hreq : service.request req = some request)
      (hs : (id, request, response) ∈ d.served)
      (h : Ending ⟨request, qName id.pid⟩ (finish service) response rest) : Phase d id rest

section Calls

variable {d d' : Deployment} {id : CallId} {rest : Call}

/-- What a call has asked for, it goes on asking for. -/
theorem Asked.mono {request : Request} (h : Asked d id request) (hb : d.begun ⊆ d'.begun) :
    Asked d' id request := by
  obtain ⟨service, req, hmem, hreq⟩ := h
  exact ⟨service, req, hb hmem, hreq⟩

/-- What a call has come to stands while the two histories grow. -/
theorem Phase.mono (h : Phase d id rest) (hb : d.begun ⊆ d'.begun) (hs : d.served ⊆ d'.served) :
    Phase d' id rest := by
  cases h with
  | idle result h0 => exact .idle result h0
  | failed => exact .failed
  | waiting hmem hreq h => exact .waiting (hb hmem) hreq h
  | ending hmem hreq hserved h => exact .ending (hb hmem) hreq (hs hserved) h

/-- A call that begins is refused at once or begins its exchange. -/
theorem Phase.begin {pid n : Nat} {req : Request} {service : Service}
    (hb : (⟨pid, n⟩, service, req) ∈ d.begun) : Phase d ⟨pid, n⟩ (call pid req service) := by
  unfold Client.call
  cases hreq : service.request req with
  | none => exact .failed
  | some request => exact .waiting hb hreq .opening

/-- The response that a call of the queues answers with. -/
def QueueCall.responds : (a : QueueCall) → a.Answer → Option Response
  | .receive _, response => response
  | _, _ => none

/-- A call goes on with any answer, and with a response that its request was served with. -/
theorem Phase.next {a : QueueCall} {k : a.Answer → Call} (h : Phase d id (.call a k))
    (x : a.Answer) (hresponse : ∀ request, Asked d id request → ∀ response ∈ a.responds x,
      (id, request, response) ∈ d.served) :
    Phase d id (k x) := by
  cases h with
  | @waiting service req request _ hb hreq h =>
    cases h with
    | opening =>
      cases x with
      | none => exact .failed
      | some qClient => exact .waiting hb hreq (.connecting qClient)
    | connecting qClient =>
      cases x with
      | false => exact .failed
      | true => exact .waiting hb hreq (.sending qClient)
    | sending qClient =>
      cases x with
      | false => exact .failed
      | true => exact .waiting hb hreq (.receiving qClient)
    | receiving qClient =>
      cases x with
      | none => exact .failed
      | some response =>
        have hserved := hresponse request ⟨service, req, hb, hreq⟩ response rfl
        exact .ending hb hreq hserved (.closingServer qClient)
  | @ending service req request response _ hb hreq hs h =>
    cases h with
    | closingServer qClient => exact .ending hb hreq hs (.closingClient qClient)
    | closingClient qClient => exact .ending hb hreq hs .unlinking
    | unlinking =>
      cases x with
      | false => exact .failed
      | true => exact .ending hb hreq hs .returned

/-- A request that a call is about to send is its own. -/
theorem Phase.send {req : Message} {k : Bool → Call} (h : Phase d id (.call (.send req) k)) :
    Asked d id req.request := by
  cases h with
  | waiting hb hreq h =>
    cases h with
    | sending qClient => exact ⟨_, _, hb, hreq⟩
  | ending hb hreq hs h => cases h

end Calls

/-! ## The queues -/

section Queues

variable {s s₁ : State} {id : CallId} {ok : Bool}

/-- What a call of the queues leaves, and where its response comes from. -/
structure Leaves (s : State) (id : CallId) (a : QueueCall) (x : a.Answer) (s₁ : State) :
    Prop where
  process : s₁.process = s.process
  workers : s₁.workers = s.workers
  server : ∀ y ∈ s₁.server, y ∈ s.server ∨ ∃ req, a = .send req ∧ y = (id, req)
  contents : ∀ q, s₁.queues.contents q ⊆ s.queues.contents q
  responds : ∀ response ∈ a.responds x, ∃ q id' rest, a = .receive q ∧
    s.queues.contents q = (id', response) :: rest

/-- A queue call that changes nothing and brings no response. -/
theorem Leaves.silent {a : QueueCall} {x : a.Answer} (h : a.responds x = none) :
    Leaves s id a x s where
  process := rfl
  workers := rfl
  server := fun _ hy => .inl hy
  contents := fun _ => List.Subset.refl _
  responds := fun response hr => by rw [h] at hr; cases hr

/-- A queue that is opened holds no message that it did not hold before. -/
theorem contents_openCreate (q : Queues Bytes (CallId × Response)) (name : Bytes) (fd : Nat) :
    (q.openCreate name).2.contents fd ⊆ q.contents fd := by
  unfold Queues.openCreate
  cases q.named name with
  | some fd' => exact List.Subset.refl _
  | none =>
    by_cases hfd : fd = q.fresh
    · subst hfd
      simp [Queues.create]
    · simp [Queues.create, hfd]

theorem contents_unlink {q q' : Queues Bytes (CallId × Response)} {name : Bytes}
    (h : q.unlink name = some q') : q'.contents = q.contents := by
  unfold Queues.unlink at h
  split at h
  · cases h
  · obtain rfl := Option.some.inj h
    rfl

/-- Whatever a queue call does, the server's queue gains at most its request, the other queues gain
nothing, and a response is the head of one of them. -/
theorem leaves_of_perform {a : QueueCall} {x : a.Answer}
    (h : perform id ok s a = some (x, s₁)) : Leaves s id a x s₁ := by
  cases a with
  | openClient name =>
    cases ok with
    | false =>
      obtain ⟨rfl, rfl⟩ := Prod.mk.inj (Option.some.inj h)
      exact .silent rfl
    | true =>
      obtain ⟨rfl, rfl⟩ := Prod.mk.inj (Option.some.inj h)
      exact ⟨rfl, rfl, fun _ hy => .inl hy, contents_openCreate _ _, fun _ hr => by cases hr⟩
  | openServer =>
    obtain ⟨rfl, rfl⟩ := Prod.mk.inj (Option.some.inj h)
    exact .silent rfl
  | send req =>
    cases ok with
    | false =>
      obtain ⟨rfl, rfl⟩ := Prod.mk.inj (Option.some.inj h)
      exact .silent rfl
    | true =>
      simp only [perform, if_true] at h
      split at h
      · obtain ⟨rfl, rfl⟩ := Prod.mk.inj (Option.some.inj h)
        refine ⟨rfl, rfl, fun y hy => ?_, fun _ => List.Subset.refl _, fun _ hr => by cases hr⟩
        rcases List.mem_append.1 hy with hy | hy
        · exact .inl hy
        · exact .inr ⟨req, rfl, List.mem_singleton.1 hy⟩
      · cases h
  | receive q =>
    cases ok with
    | false =>
      obtain ⟨rfl, rfl⟩ := Prod.mk.inj (Option.some.inj h)
      exact .silent rfl
    | true =>
      obtain ⟨⟨m, queues⟩, hr, heq⟩ := Option.map_eq_some_iff.1 h
      obtain ⟨rfl, rfl⟩ := Prod.mk.inj heq
      obtain ⟨rest, hcontents, hq'⟩ := Queues.contents_receive hr
      refine ⟨rfl, rfl, fun _ hy => .inl hy, fun fd => ?_, fun response hmem => ?_⟩
      · rw [State.queues_withQueues, hq']
        by_cases hfd : fd = q
        · subst hfd
          rw [Function.update_self, hcontents]
          exact List.subset_cons_self _ _
        · rw [Function.update_of_ne hfd]
          exact List.Subset.refl _
      · obtain rfl : m.2 = response := Option.some.inj hmem
        exact ⟨q, m.1, rest, rfl, hcontents⟩
  | closeServer =>
    obtain ⟨rfl, rfl⟩ := Prod.mk.inj (Option.some.inj h)
    exact .silent rfl
  | closeClient q =>
    obtain ⟨rfl, rfl⟩ := Prod.mk.inj (Option.some.inj h)
    exact .silent rfl
  | unlink name =>
    simp only [perform] at h
    cases hu : s.queues.unlink name with
    | none =>
      rw [hu] at h
      obtain ⟨rfl, rfl⟩ := Prod.mk.inj (Option.some.inj h)
      exact .silent rfl
    | some queues =>
      rw [hu] at h
      cases ok with
      | false =>
        obtain ⟨rfl, rfl⟩ := Prod.mk.inj (Option.some.inj h)
        exact .silent rfl
      | true =>
        obtain ⟨rfl, rfl⟩ := Prod.mk.inj (Option.some.inj h)
        refine ⟨rfl, rfl, fun _ hy => .inl hy, fun fd => ?_, fun _ hr => by cases hr⟩
        rw [State.queues_withQueues, contents_unlink hu]
        exact List.Subset.refl _

end Queues

/-! ## Runs -/

/-- The invariant. -/
structure Deployment.Inv (d : Deployment) : Prop where
  clients : Client.Inv d.clients
  server : ∀ x ∈ d.clients.server, Asked d x.1 x.2.request
  workers : ∀ w ∈ d.clients.workers, Asked d w.id w.req.request
  contents : ∀ q, ∀ x ∈ d.clients.queues.contents q, ∃ request, (x.1, request, x.2) ∈ d.served
  phase : ∀ pid, Phase d ⟨pid, (d.clients.process pid).calls⟩ (d.clients.process pid).rest
  begun_le : ∀ x ∈ d.begun, x.1.number ≤ (d.clients.process x.1.pid).calls
  begun_nodup : (d.begun.map Prod.fst).Nodup
  asked : ∀ x ∈ d.served, Asked d x.1 x.2.1
  served_nodup : (d.served.map Prod.fst).Nodup
  history : ∃ M, MapHistory (d.served.map fun x => (x.2.1, .ok x.2.2)) M ∧ Represents d.memory M

namespace Deployment.Inv

variable {d : Deployment} {e : Event} {s : State}

/-- Nothing has begun. -/
theorem init : deployed.Inv where
  clients := .init
  server := fun _ hx => absurd hx List.not_mem_nil
  workers := fun _ hx => absurd hx List.not_mem_nil
  contents := fun _ _ hx => absurd hx List.not_mem_nil
  phase := fun _ => .idle _ rfl
  begun_le := fun _ hx => absurd hx List.not_mem_nil
  begun_nodup := List.nodup_nil
  asked := fun _ hx => absurd hx List.not_mem_nil
  served_nodup := List.nodup_nil
  history := ⟨_, .nil, holds_initialMemory.represents .nil rfl⟩

/-- A call asks for one request. -/
theorem asked_unique (h : d.Inv) {id : CallId} {request request' : Request}
    (ha : Asked d id request) (ha' : Asked d id request') : request = request' := by
  obtain ⟨service, req, hmem, hreq⟩ := ha
  obtain ⟨service', req', hmem', hreq'⟩ := ha'
  have hsame : ((id, service, req) : CallId × Service × Request) = (id, service', req') :=
    List.inj_on_of_nodup_map h.begun_nodup hmem hmem' rfl
  obtain ⟨-, rfl, rfl⟩ := Prod.mk.injEq .. ▸ hsame
  exact Option.some.inj (hreq.symm.trans hreq')

/-- A step of the server's queue and threads, in which no call begins. -/
theorem server_step (h : d.Inv) (hinv : Client.Inv s) (hprocess : s.process = d.clients.process)
    (hserver : ∀ x ∈ s.server, x ∈ d.clients.server)
    (hworkers : ∀ w ∈ s.workers, Asked d w.id w.req.request)
    (hcontents : ∀ q, ∀ x ∈ s.queues.contents q, ∃ request, (x.1, request, x.2) ∈ d.served) :
    ({ d with clients := s } : Deployment).Inv where
  clients := hinv
  server x hx := h.server x (hserver x hx)
  workers := hworkers
  contents := hcontents
  phase pid := by
    rw [hprocess]
    exact (h.phase pid).mono (List.Subset.refl _) (List.Subset.refl _)
  begun_le x hx := by
    rw [hprocess]
    exact h.begun_le x hx
  begun_nodup := h.begun_nodup
  asked := h.asked
  served_nodup := h.served_nodup
  history := h.history

/-- A process begins a call. -/
theorem begin (h : d.Inv) {pid : Nat} {req : Request} {service : Service}
    (hinv : Client.Inv s)
    (hs : s = d.clients.setProcess pid
      ⟨(d.clients.process pid).calls + 1, call pid req service⟩) :
    ({ d with clients := s, begun := d.begins (.begin pid req service) } : Deployment).Inv := by
  subst hs
  have hsub : d.begun ⊆ d.begins (.begin pid req service) := List.subset_append_left _ _
  have hnew : (⟨pid, (d.clients.process pid).calls + 1⟩ : CallId) ∉ d.begun.map Prod.fst := by
    intro hmem
    obtain ⟨x, hx, hid⟩ := List.mem_map.1 hmem
    have hle := h.begun_le x hx
    rw [hid] at hle
    simp only at hle
    omega
  exact
    { clients := hinv
      server := fun x hx => (h.server x hx).mono hsub
      workers := fun w hw => (h.workers w hw).mono hsub
      contents := h.contents
      phase := fun pid' => by
        by_cases hpid : pid' = pid
        · subst hpid
          simp only [State.process_setProcess_self]
          exact .begin (List.mem_append_right _ (List.mem_singleton_self _))
        · simp only [State.process_setProcess_of_ne _ hpid]
          exact (h.phase pid').mono hsub (List.Subset.refl _)
      begun_le := fun x hx => by
        rcases List.mem_append.1 hx with hx | hx
        · by_cases hpid : x.1.pid = pid
          · simp only [hpid, State.process_setProcess_self]
            have hle := h.begun_le x hx
            rw [hpid] at hle
            omega
          · simp only [State.process_setProcess_of_ne _ hpid]
            exact h.begun_le x hx
        · obtain rfl := List.mem_singleton.1 hx
          simp only [State.process_setProcess_self]
          exact Nat.le_refl _
      begun_nodup := by
        change ((d.begun ++ [_]).map Prod.fst).Nodup
        rw [List.map_append, List.nodup_append]
        refine ⟨h.begun_nodup, List.nodup_singleton _, fun x hx y hy hxy => ?_⟩
        obtain rfl := List.mem_singleton.1 hy
        rw [hxy] at hx
        exact hnew hx
      asked := fun x hx => (h.asked x hx).mono hsub
      served_nodup := h.served_nodup
      history := h.history }

/-- A response comes from a successful `mq_receive`. -/
theorem receives_of_responds {clients s₁ : State} {pid : Nat} {ok : Bool} {a : QueueCall}
    {k : a.Answer → Call} {x : a.Answer} {response : Response}
    (hrest : (clients.process pid).rest = .call a k)
    (hperform : perform ⟨pid, (clients.process pid).calls⟩ ok clients a = some (x, s₁))
    (hr : response ∈ a.responds x) :
    ∃ q id rest, clients.queues.contents q = (id, response) :: rest ∧
      receives clients (.run pid ok) = some (⟨pid, (clients.process pid).calls⟩, id) := by
  obtain ⟨q, id, rest, rfl, hcontents⟩ := (leaves_of_perform hperform).responds response hr
  refine ⟨q, id, rest, hcontents, ?_⟩
  cases ok with
  | false =>
    obtain ⟨rfl, -⟩ := Prod.mk.inj (Option.some.inj hperform)
    cases hr
  | true =>
    unfold receives
    simp only [hrest, hcontents, List.head?_cons, Option.map_some]

/-- A process makes the next call of its exchange. -/
theorem run (h : d.Inv) {pid : Nat} {ok : Bool} (hinv : Client.Inv s)
    (hown : ∀ r ∈ receives d.clients (.run pid ok), r.1 = r.2)
    (hs : Step d.clients (.run pid ok) s) : ({ d with clients := s } : Deployment).Inv := by
  have hphase := h.phase pid
  unfold Step Client.next at hs
  simp only at hs
  cases hrest : (d.clients.process pid).rest with
  | done result =>
    rw [hrest] at hs
    cases hs
  | call a k =>
    rw [hrest] at hs hphase
    obtain ⟨⟨x, s₁⟩, hperform, rfl⟩ := Option.map_eq_some_iff.1 hs
    have hleaves := leaves_of_perform hperform
    have hnext : Phase d ⟨pid, (d.clients.process pid).calls⟩ (k x) := by
      refine hphase.next x fun request hasked response hr => ?_
      obtain ⟨q, id, rest, hcontents, hreceives⟩ := receives_of_responds hrest hperform hr
      obtain rfl : (⟨pid, (d.clients.process pid).calls⟩ : CallId) = id := hown _ hreceives
      obtain ⟨request', hserved⟩ := h.contents q _ (by rw [hcontents]; exact List.mem_cons_self)
      rwa [h.asked_unique hasked (h.asked _ hserved)]
    exact
      { clients := hinv
        server := fun y hy => by
          rcases hleaves.server y hy with hy | ⟨req, rfl, rfl⟩
          · exact h.server y hy
          · exact hphase.send
        workers := fun w hw => h.workers w (hleaves.workers ▸ hw)
        contents := fun q y hy => h.contents q y (hleaves.contents q hy)
        phase := fun pid' => by
          by_cases hpid : pid' = pid
          · subst hpid
            simp only [State.process_setProcess_self]
            exact hnext.mono (List.Subset.refl _) (List.Subset.refl _)
          · simp only [State.process_setProcess_of_ne _ hpid, hleaves.process]
            exact (h.phase pid').mono (List.Subset.refl _) (List.Subset.refl _)
        begun_le := fun y hy => by
          by_cases hpid : y.1.pid = pid
          · have hle := h.begun_le y hy
            simp only [hpid, State.process_setProcess_self] at hle ⊢
            exact hle
          · simp only [State.process_setProcess_of_ne _ hpid, hleaves.process]
            exact h.begun_le y hy
        begun_nodup := h.begun_nodup
        asked := h.asked
        served_nodup := h.served_nodup
        history := h.history }

/-- A thread calls `function_selector`. -/
theorem execute (h : d.Inv) {id : CallId} {req : Message} {response : Response} {memory : Memory}
    (hw : (⟨id, req, none⟩ : Worker) ∈ d.clients.workers)
    (hnew : id ∉ d.served.map Prod.fst) (hfew : d.memory.storage.size < 2 ^ 30)
    (hserve : serve allocating req.request d.memory = (.ok response, memory)) :
    ({ d with memory, served := d.served ++ [(id, req.request, response)] } : Deployment).Inv := by
  have hsub : d.served ⊆ d.served ++ [(id, req.request, response)] := List.subset_append_left _ _
  have hasked : Asked d id req.request := h.workers _ hw
  obtain ⟨M, hhistory, hM⟩ := h.history
  obtain ⟨service, req', -, hreq⟩ := hasked
  obtain ⟨response', memory', M', hmeets, hM', hserved⟩ := hM.meets hreq hfew
  obtain ⟨hresponse, rfl⟩ := Prod.mk.inj (hmeets.symm.trans hserve)
  obtain rfl := Except.ok.inj hresponse
  exact
    { clients := h.clients
      server := h.server
      workers := h.workers
      contents := fun q x hx => by
        obtain ⟨request, hmem⟩ := h.contents q x hx
        exact ⟨request, hsub hmem⟩
      phase := fun pid => (h.phase pid).mono (List.Subset.refl _) hsub
      begun_le := h.begun_le
      begun_nodup := h.begun_nodup
      asked := fun x hx => by
        rcases List.mem_append.1 hx with hx | hx
        · exact h.asked x hx
        · obtain rfl := List.mem_singleton.1 hx
          exact h.workers _ hw
      served_nodup := by
        rw [List.map_append, List.nodup_append]
        refine ⟨h.served_nodup, List.nodup_singleton _, fun x hx y hy hxy => ?_⟩
        obtain rfl := List.mem_singleton.1 hy
        rw [hxy] at hx
        exact hnew hx
      history := ⟨M', by rw [List.map_append]; exact hhistory.snoc hreq hserved, hM'⟩ }

/-- A step of the queues. -/
theorem client (h : d.Inv) (hG : Settled d.clients e) (hs : Step d.clients e s)
    (ha : d.Allows e) : ({ d with clients := s, begun := d.begins e } : Deployment).Inv := by
  obtain ⟨hinv, hown⟩ := h.clients.step hG hs
  cases e with
  | run pid ok => exact h.run hinv hown hs
  | begin pid req service =>
    refine h.begin hinv ?_
    unfold Step Client.next at hs
    simp only at hs
    split at hs
    · exact (Option.some.inj hs).symm
    · cases hs
  | take =>
    unfold Step Client.next at hs
    simp only at hs
    split at hs
    · cases hs
    · rename_i id req server hserver
      obtain rfl := Option.some.inj hs
      refine h.server_step hinv rfl (fun x hx => ?_) (fun w hw => ?_) h.contents
      · rw [hserver]
        exact List.mem_cons_of_mem _ hx
      · rcases List.mem_append.1 hw with hw | hw
        · exact h.workers w hw
        · obtain rfl := List.mem_singleton.1 hw
          exact h.server (id, req) (by rw [hserver]; exact List.mem_cons_self)
  | openQueue i ok =>
    unfold Step Client.next at hs
    simp only at hs
    split at hs
    · rename_i id req hw
      split at hs
      · rename_i qClient hq
        split at hs
        · obtain rfl := Option.some.inj hs
          refine h.server_step hinv rfl (fun x hx => hx) (fun w hmem => ?_) h.contents
          rcases List.mem_or_eq_of_mem_set hmem with hmem | rfl
          · exact h.workers w hmem
          · exact h.workers ⟨id, req, none⟩ (List.mem_of_getElem? hw)
        · obtain rfl := Option.some.inj hs
          exact h.server_step hinv rfl (fun x hx => hx)
            (fun w hmem => h.workers w (List.mem_of_mem_eraseIdx hmem)) h.contents
      · obtain rfl := Option.some.inj hs
        exact h.server_step hinv rfl (fun x hx => hx)
          (fun w hmem => h.workers w (List.mem_of_mem_eraseIdx hmem)) h.contents
    · cases hs
  | answer i response =>
    unfold Step Client.next at hs
    simp only at hs
    split at hs
    · rename_i id req qClient hw
      split at hs
      · rename_i response
        obtain ⟨queues, hq, rfl⟩ := Option.map_eq_some_iff.1 hs
        refine h.server_step hinv rfl (fun x hx => hx)
          (fun w hmem => h.workers w (List.mem_of_mem_eraseIdx hmem)) fun q x hx => ?_
        simp only [Queues.contents_send hq] at hx
        by_cases hqq : q = qClient
        · subst hqq
          rw [Function.update_self] at hx
          rcases List.mem_append.1 hx with hx | hx
          · exact h.contents q x hx
          · obtain rfl := List.mem_singleton.1 hx
            exact ⟨req.request, ha _ hw⟩
        · rw [Function.update_of_ne hqq] at hx
          exact h.contents q x hx
      · obtain rfl := Option.some.inj hs
        exact h.server_step hinv rfl (fun x hx => hx)
          (fun w hmem => h.workers w (List.mem_of_mem_eraseIdx hmem)) h.contents
    · cases hs

/-- Every act keeps the invariant: the clients' by what the queues hold, `function_selector` by the
map that the memory represents. -/
theorem step {a : Act} {d' : Deployment} (h : d.Inv) (hG : SettledAct d a) (hs : Acts d a d') :
    d'.Inv := by
  cases a with
  | client e =>
    obtain ⟨clients, hstep, ha, rfl⟩ := hs.client
    exact h.client hG.2 hstep ha
  | execute i =>
    obtain ⟨id, req, response, memory, hw, hnew, hserve, rfl⟩ := hs.execute
    exact h.execute (List.mem_of_getElem? hw) hnew hG hserve

end Deployment.Inv

/-- What has been served stays. -/
theorem Acts.grows {d d' : Deployment} {a : Act} (h : Acts d a d') : d.served <+: d'.served := by
  cases a with
  | client e =>
    obtain ⟨clients, -, -, rfl⟩ := h.client
    exact List.prefix_refl _
  | execute i =>
    obtain ⟨id, req, response, memory, -, -, -, rfl⟩ := h.execute
    exact List.prefix_append _ _

/-- A call that has ended with something else than -1 was served, and returns what that says. -/
theorem Phase.returned {d : Deployment} {id : CallId} {rest : Call} {r : Returned}
    (h : Phase d id rest) (hr : rest.result? = some r) (hid : 0 < id.number) :
    r = ⟨-1, none⟩ ∨ ∃ service req request response, (id, service, req) ∈ d.begun ∧
      service.request req = some request ∧ (id, request, response) ∈ d.served ∧
        r = finish service response := by
  cases h with
  | idle result h0 => exact absurd h0 (Nat.ne_of_gt hid)
  | failed => exact .inl (Option.some.inj hr).symm
  | waiting hb hreq h => cases h <;> cases hr
  | ending hb hreq hs h =>
    cases h with
    | returned => exact .inr ⟨_, _, _, _, hb, hreq, hs, (Option.some.inj hr).symm⟩
    | closingServer qClient => cases hr
    | closingClient qClient => cases hr
    | unlinking => cases hr

/-- **The service is linearizable.** Calls take effect one after the other on a finite map, each
while it is on its way, and a call that does not end with -1 returns what the map promised. No
thread goes out of range. -/
theorem calls_linearizable {acts more : List (Deployment × Act)} {d d' : Deployment}
    (h : Run Acts deployed acts d) (hmore : Run Acts d more d')
    (hG : Guarded SettledAct acts) (hG' : Guarded SettledAct more) :
    (∃ M, MapHistory (d'.served.map fun x => (x.2.1, .ok x.2.2)) M ∧ Represents d'.memory M) ∧
      (d'.served.map Prod.fst).Nodup ∧
      (∃ later, d'.served = d.served ++ later) ∧ (∀ x ∈ d.served, Asked d x.1 x.2.1) ∧
      (∀ pid r, (d.clients.process pid).rest.result? = some r →
        0 < (d.clients.process pid).calls → r = ⟨-1, none⟩ ∨
          ∃ service req request response,
            (⟨pid, (d.clients.process pid).calls⟩, service, req) ∈ d.begun ∧
              service.request req = some request ∧
              (⟨pid, (d.clients.process pid).calls⟩, request, response) ∈ d.served ∧
              r = finish service response) ∧
      ∀ w ∈ d.clients.workers, d.memory.storage.size < 2 ^ 30 →
        ∃ response memory, serve allocating w.req.request d.memory = (.ok response, memory) := by
  have hd : d.Inv := h.invariant_of_guard .init (fun _ _ _ hI hG hs => hI.step hG hs) hG
  have hd' : d'.Inv := hmore.invariant_of_guard hd (fun _ _ _ hI hG hs => hI.step hG hs) hG'
  have hlater : d.served <+: d'.served := by
    refine hmore.invariant_of_guard (I := fun d' => d.served <+: d'.served)
      (List.prefix_refl _) (fun _ _ _ hI _ hs => hI.trans hs.grows) hG'
  refine ⟨hd'.history, hd'.served_nodup, ?_, hd.asked,
    fun pid r hr hcalls => (hd.phase pid).returned hr hcalls, fun w hw hfew => ?_⟩
  · obtain ⟨later, heq⟩ := hlater
    exact ⟨later, heq.symm⟩
  · obtain ⟨M, -, hM⟩ := hd.history
    obtain ⟨service, req, -, hreq⟩ := hd.workers w hw
    obtain ⟨response, memory, -, hserve, -⟩ := hM.meets hreq hfew
    exact ⟨response, memory, hserve⟩

/-- `v1` is created, and a second process loads its element. -/
theorem initV1_linearized :
    ∃ acts d, Run Acts deployed acts d ∧
      (d.clients.process 42).rest.result? = some ⟨1, none⟩ ∧
      (d.clients.process 7).rest.result? = some ⟨0, some 0⟩ ∧
      ∃ M, MapHistory (d.served.map fun x => (x.2.1, .ok x.2.2)) M ∧ Represents d.memory M := by
  let calling (pid : Nat) (service : Service) : List Act :=
    .client (.begin pid ⟨0, [], 0, 0⟩ service) :: List.replicate 3 (.client (.run pid true))
  let ending (pid : Nat) : List Act := List.replicate 4 (.client (.run pid true))
  obtain ⟨acts, d, hr, hG, hinit, hget⟩ : ∃ acts d, Run Acts deployed acts d ∧
      Guarded SettledAct acts ∧ (d.clients.process 42).rest.result? = some ⟨1, none⟩ ∧
      (d.clients.process 7).rest.result? = some ⟨0, some 0⟩ :=
    Run.exists_of_replay (calling 42 (.init [118, 49] 1) ++ calling 7 (.get [118, 49] 0) ++
      [.client .take, .client .take, .execute 0, .execute 1, .client (.openQueue 1 true),
        .client (.openQueue 0 true), .client (.answer 1 (some ⟨0, some 0⟩)),
        .client (.answer 0 (some ⟨1, none⟩))] ++ ending 42 ++ ending 7)
      (by decide +kernel)
  exact ⟨acts, d, hr, hinit, hget, (calls_linearizable hr .nil hG (guarded_nil _)).1⟩

end DistributedSystems.Exercise1.Client
