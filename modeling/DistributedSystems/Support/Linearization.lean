import DistributedSystems.Support.Traces
import Mathlib.Data.List.Nodup

/-!
# Clients of one shared state

Any number of threads, each with a state of its own, over one shared state. A call is local when it
goes by the thread's own state and leaves the shared one alone. Programs that make at most one call
that is not local are linearizable in the order of these calls (`linearizable`): however the threads
are interleaved, call by call, the shared state is the one that the same programs leave when they
are run one after the other in that order, and a thread that has ended did what its program does in
its turn. The order is one that agrees with time (`order_of_ended`).
-/

namespace DistributedSystems.Support

variable {σ π τ ε κ ρ : Type} {Answer : κ → Type}

namespace Program

/-- On any way through the program all calls are local but at most one, which is one of `Q`. -/
def AtMostOnce (isLocal : κ → Bool) (Q : κ → Prop) : Program Answer ρ → Prop
  | done _ => True
  | call a next => (isLocal a = true ∧ ∀ x, (next x).AtMostOnce isLocal Q) ∨
      Q a ∧ ∀ x, (next x).Always fun a _ => isLocal a = true

variable {isLocal : κ → Bool} {Q : κ → Prop}

theorem atMostOnce_of_always {program : Program Answer ρ}
    (h : program.Always fun a _ => isLocal a = true) : program.AtMostOnce isLocal Q := by
  induction program with
  | done r => trivial
  | call a next ih => exact Or.inl ⟨h.1, fun x => ih x (h.2 x)⟩

/-- A program with at most one call, and then local ones. -/
theorem AtMostOnce.bind {ρ' : Type} {program : Program Answer ρ}
    {k : ρ → Program Answer ρ'} (h : program.AtMostOnce isLocal Q)
    (hk : ∀ r, (k r).Always fun a _ => isLocal a = true) :
    (program.bind k).AtMostOnce isLocal Q := by
  induction program with
  | done r => exact atMostOnce_of_always (hk r)
  | call a next ih =>
    rcases h with ⟨ha, hnext⟩ | ⟨hQ, hlocal⟩
    · exact Or.inl ⟨ha, fun x => ih x (hnext x)⟩
    · exact Or.inr ⟨hQ, fun x => always_bind (hlocal x) hk⟩

end Program

/-- The programs of requests, each with the state that its thread starts in, and the effect of a
call on the thread's own state and the shared one. -/
structure Clients (σ π τ ε : Type) {κ : Type} (Answer : κ → Type) (ρ : Type) where
  own : τ → π
  start : τ → Program Answer ρ
  exec : ε → (a : κ) → π × σ → Answer a × π × σ
  isLocal : κ → Bool
  /-- A local call goes by the thread's own state. -/
  exec_local : ∀ a, isLocal a = true → ∀ e e' o s s',
    (exec e a (o, s)).1 = (exec e' a (o, s')).1 ∧
      (exec e a (o, s)).2.1 = (exec e' a (o, s')).2.1 ∧ (exec e a (o, s)).2.2 = s

/-- A thread: its request, its state, and what is left of its program. -/
structure Client (π τ : Type) {κ : Type} (Answer : κ → Type) (ρ : Type) where
  request : τ
  own : π
  rest : Program Answer ρ

structure Clients.Pool (σ π τ : Type) {κ : Type} (Answer : κ → Type) (ρ : Type) where
  shared : σ
  clients : List (Client π τ Answer ρ)

namespace Clients

variable (S : Clients σ π τ ε Answer ρ)

def move (p : Pool σ π τ Answer ρ) : Move τ ε → Pool σ π τ Answer ρ
  | .spawn r => { p with clients := p.clients ++ [⟨r, S.own r, S.start r⟩] }
  | .run i e =>
    match p.clients[i]? with
    | some ⟨r, o, .call a next⟩ =>
      let x := S.exec e a (o, p.shared)
      ⟨x.2.2, p.clients.set i ⟨r, x.2.1, next x.1⟩⟩
    | _ => p

def Step (p : Pool σ π τ Answer ρ) (m : Move τ ε) (p' : Pool σ π τ Answer ρ) : Prop :=
  S.move p m = p'

/-- The steps of the moves, made in order. -/
def schedule (p : Pool σ π τ Answer ρ) :
    List (Move τ ε) → List (Pool σ π τ Answer ρ × Move τ ε)
  | [] => []
  | m :: ms => (p, m) :: schedule (S.move p m) ms

theorem run_schedule (p : Pool σ π τ Answer ρ) (ms : List (Move τ ε)) :
    Run S.Step p (S.schedule p ms) (ms.foldl S.move p) := by
  induction ms generalizing p with
  | nil => exact .nil
  | cons m ms ih => exact (ih (S.move p m)).cons rfl

/-- The thread that makes a call that is not local, with the conditions of the call. -/
def entry (p : Pool σ π τ Answer ρ) : Move τ ε → Option (Nat × ε)
  | .spawn _ => none
  | .run i e =>
    match p.clients[i]? with
    | some ⟨_, _, .call a _⟩ => if S.isLocal a then none else some (i, e)
    | _ => none

/-- The threads in the order of these calls. -/
def order (steps : List (Pool σ π τ Answer ρ × Move τ ε)) : List (Nat × ε) :=
  steps.filterMap fun x => S.entry x.1 x.2

/-- A program run alone. -/
def alone (r : τ) (e : ε) (s : σ) : ρ × π × σ := (S.start r).run (S.exec e) (S.own r, s)

/-- The shared state after programs that are run one after the other. -/
def serial (s : σ) (requests : List (τ × ε)) : σ :=
  requests.foldl (fun s x => (S.alone x.1 x.2 s).2.2) s

theorem serial_snoc (s : σ) (requests : List (τ × ε)) (r : τ) (e : ε) :
    S.serial s (requests ++ [(r, e)]) = (S.alone r e (S.serial s requests)).2.2 := by
  simp [serial]

/-- The requests of an order. -/
def requests (p : Pool σ π τ Answer ρ) (order : List (Nat × ε)) : List (τ × ε) :=
  order.filterMap fun x => p.clients[x.1]?.map fun client => (client.request, x.2)

/-! ## Local programs -/

variable {S} {Q : κ → Prop}

theorem run_local {program : Program Answer ρ}
    (h : program.Always fun a _ => S.isLocal a = true) (e e' : ε) (o : π) (s s' : σ) :
    (program.run (S.exec e) (o, s)).1 = (program.run (S.exec e') (o, s')).1 ∧
      (program.run (S.exec e) (o, s)).2.1 = (program.run (S.exec e') (o, s')).2.1 ∧
      (program.run (S.exec e) (o, s)).2.2 = s := by
  induction program generalizing o with
  | done r => exact ⟨rfl, rfl, rfl⟩
  | call a next ih =>
    obtain ⟨hanswer, hown, hshared⟩ := S.exec_local a h.1 e e' o s s'
    obtain ⟨-, -, hshared'⟩ := S.exec_local a h.1 e' e o s' s
    have hstate : (S.exec e a (o, s)).2 = ((S.exec e' a (o, s')).2.1, s) :=
      Prod.ext hown hshared
    have hstate' : (S.exec e' a (o, s')).2 = ((S.exec e' a (o, s')).2.1, s') :=
      Prod.ext rfl hshared'
    rw [Program.run_call, Program.run_call, hanswer, hstate, hstate']
    exact ih _ (h.2 _) _

/-- What a local call leaves of a program does what the program does. -/
theorem run_after_local {a : κ} (ha : S.isLocal a = true) (next : Answer a → Program Answer ρ)
    (e e' : ε) (o : π) (s s' : σ) :
    (next (S.exec e a (o, s)).1).run (S.exec e') ((S.exec e a (o, s)).2.1, s') =
      (Program.call a next).run (S.exec e') (o, s') := by
  obtain ⟨hanswer, hown, -⟩ := S.exec_local a ha e e' o s s'
  obtain ⟨-, -, hshared⟩ := S.exec_local a ha e' e o s' s
  have hstate : (S.exec e' a (o, s')).2 = ((S.exec e' a (o, s')).2.1, s') := Prod.ext rfl hshared
  rw [Program.run_call, hanswer, hown, ← hstate]

/-- A program leaves the shared state alone, or as one call makes it. -/
theorem shared_run {program : Program Answer ρ} (h : program.AtMostOnce S.isLocal Q) (e : ε) (o : π)
    (s : σ) : (program.run (S.exec e) (o, s)).2.2 = s ∨
      ∃ a o', Q a ∧ (program.run (S.exec e) (o, s)).2.2 = (S.exec e a (o', s)).2.2 := by
  induction program generalizing o with
  | done r => exact Or.inl rfl
  | call a next ih =>
    rcases h with ⟨ha, hnext⟩ | ⟨hQ, hlocal⟩
    · obtain ⟨-, -, hshared⟩ := S.exec_local a ha e e o s s
      have hstate : (S.exec e a (o, s)).2 = ((S.exec e a (o, s)).2.1, s) := Prod.ext rfl hshared
      rw [Program.run_call, hstate]
      exact ih _ (hnext _) _
    · refine Or.inr ⟨a, o, hQ, ?_⟩
      rw [Program.run_call]
      obtain ⟨-, -, hshared⟩ := run_local (hlocal (S.exec e a (o, s)).1) e e
        (S.exec e a (o, s)).2.1 (S.exec e a (o, s)).2.2 s
      exact hshared

/-! ## One thread -/

variable (S Q) in
/-- Nothing shared has been called: what is left does what the whole program does. -/
structure Pending (client : Client π τ Answer ρ) : Prop where
  once : client.rest.AtMostOnce S.isLocal Q
  run_eq : ∀ e s, client.rest.run (S.exec e) (client.own, s) = S.alone client.request e s

variable (S) in
/-- The call has been made under these conditions in this state: what is left is local, and ends as
the program does that is run there alone. -/
structure Passed (e : ε) (s : σ) (client : Client π τ Answer ρ) : Prop where
  rest_local : client.rest.Always fun a _ => S.isLocal a = true
  run_eq : ∀ e' s', client.rest.run (S.exec e') (client.own, s') =
    ((S.alone client.request e s).1, (S.alone client.request e s).2.1, s')

variable {r : τ} {o : π} {a : κ} {next : Answer a → Program Answer ρ}

theorem pending_start (h : (S.start r).AtMostOnce S.isLocal Q) :
    S.Pending Q ⟨r, S.own r, S.start r⟩ := ⟨h, fun _ _ => rfl⟩

theorem Pending.step_local (h : S.Pending Q ⟨r, o, .call a next⟩) (ha : S.isLocal a = true) (e : ε)
    (s : σ) :
    S.Pending Q ⟨r, (S.exec e a (o, s)).2.1, next (S.exec e a (o, s)).1⟩ := by
  refine ⟨?_, fun e' s' => ?_⟩
  · rcases h.once with ⟨-, hnext⟩ | ⟨-, hlocal⟩
    · exact hnext _
    · exact Program.atMostOnce_of_always (hlocal _)
  · exact (run_after_local ha next e e' o s s').trans (h.run_eq e' s')

theorem Passed.step {e₀ : ε} {s₀ : σ} (h : S.Passed e₀ s₀ ⟨r, o, .call a next⟩) (e : ε) (s : σ) :
    S.Passed e₀ s₀ ⟨r, (S.exec e a (o, s)).2.1, next (S.exec e a (o, s)).1⟩ := by
  refine ⟨h.rest_local.2 _, fun e' s' => ?_⟩
  exact (run_after_local h.rest_local.1 next e e' o s s').trans (h.run_eq e' s')

/-- The call is made: the shared state is the one that the program leaves, run alone. -/
theorem Pending.step_shared (h : S.Pending Q ⟨r, o, .call a next⟩) (ha : S.isLocal a = false)
    (e : ε) (s : σ) :
    S.Passed e s ⟨r, (S.exec e a (o, s)).2.1, next (S.exec e a (o, s)).1⟩ ∧
      (S.exec e a (o, s)).2.2 = (S.alone r e s).2.2 := by
  have hlocal : ∀ x, (next x).Always fun a _ => S.isLocal a = true := by
    rcases h.once with ⟨ha', -⟩ | ⟨-, hlocal⟩
    · rw [ha] at ha'
      cases ha'
    · exact hlocal
  have halone : S.alone r e s =
      (next (S.exec e a (o, s)).1).run (S.exec e) (S.exec e a (o, s)).2 := (h.run_eq e s).symm
  obtain ⟨-, -, hshared⟩ :=
    run_local (hlocal (S.exec e a (o, s)).1) e e (S.exec e a (o, s)).2.1 (S.exec e a (o, s)).2.2 s
  refine ⟨⟨hlocal _, fun e' s' => ?_⟩, by rw [halone]; exact hshared.symm⟩
  obtain ⟨hresult, hown, hsame⟩ := run_local (hlocal (S.exec e a (o, s)).1) e' e
    (S.exec e a (o, s)).2.1 s' (S.exec e a (o, s)).2.2
  rw [halone]
  exact Prod.ext hresult (Prod.ext hown hsame)

/-! ## One move -/

section Move

variable (S) (p : Pool σ π τ Answer ρ)

/-- The outcomes of a move. -/
inductive Moved : Move τ ε → Pool σ π τ Answer ρ → Prop
  | spawned (r : τ) (hentry : S.entry p (.spawn r) = none) :
      Moved (.spawn r) { p with clients := p.clients ++ [⟨r, S.own r, S.start r⟩] }
  | idle (m : Move τ ε) (hentry : S.entry p m = none) : Moved m p
  | called {i : Nat} (e : ε) {r : τ} {o : π} {a : κ} {next : Answer a → Program Answer ρ}
      (hi : p.clients[i]? = some ⟨r, o, .call a next⟩)
      (hentry : S.entry p (.run i e) = if S.isLocal a then none else some (i, e)) :
      Moved (.run i e) ⟨(S.exec e a (o, p.shared)).2.2, p.clients.set i
        ⟨r, (S.exec e a (o, p.shared)).2.1, next (S.exec e a (o, p.shared)).1⟩⟩

theorem moved (m : Move τ ε) : S.Moved p m (S.move p m) := by
  cases m with
  | spawn r => exact .spawned r rfl
  | run i e =>
    cases hi : p.clients[i]? with
    | none =>
      have hmove : S.move p (.run i e) = p := by simp only [move, hi]
      rw [hmove]
      exact .idle _ (by simp only [entry, hi])
    | some client =>
      obtain ⟨r, o, rest⟩ := client
      cases rest with
      | done x =>
        have hmove : S.move p (.run i e) = p := by simp only [move, hi]
        rw [hmove]
        exact .idle _ (by simp only [entry, hi])
      | call a next =>
        have hmoved := Moved.called (S := S) (p := p) e hi (by simp only [entry, hi])
        simpa only [move, hi] using hmoved

end Move

/-! ## The order of the calls -/

variable (S Q) in
/-- The threads have called as the order says: the shared state is the one of the serial run, and
each thread is where it is in that run or has not called yet. -/
structure Ordered (s₀ : σ) (p : Pool σ π τ Answer ρ) (order : List (Nat × ε)) : Prop where
  shared : p.shared = S.serial s₀ (requests p order)
  nodup : (order.map Prod.fst).Nodup
  lt : ∀ i ∈ order.map Prod.fst, i < p.clients.length
  pending : ∀ i client, p.clients[i]? = some client → i ∉ order.map Prod.fst → S.Pending Q client
  passed : ∀ before i e after, order = before ++ (i, e) :: after →
    ∀ client, p.clients[i]? = some client → S.Passed e (S.serial s₀ (requests p before)) client

theorem requests_congr {p p' : Pool σ π τ Answer ρ} {order : List (Nat × ε)}
    (h : ∀ i ∈ order.map Prod.fst,
      p'.clients[i]?.map Client.request = p.clients[i]?.map Client.request) :
    requests p' order = requests p order := by
  unfold requests
  refine List.filterMap_congr fun x hx => ?_
  have hrequest := h x.1 (List.mem_map_of_mem hx)
  cases hp : p.clients[x.1]? with
  | none =>
    rw [hp, Option.map_none, Option.map_eq_none_iff] at hrequest
    rw [hrequest]
  | some client =>
    rw [hp, Option.map_some] at hrequest
    obtain ⟨client', hclient', hsame⟩ := Option.map_eq_some_iff.1 hrequest
    rw [hclient', Option.map_some, Option.map_some, hsame]

theorem requests_snoc {p : Pool σ π τ Answer ρ} {order : List (Nat × ε)} {i : Nat} {e : ε}
    {client : Client π τ Answer ρ} (h : p.clients[i]? = some client) :
    requests p (order ++ [(i, e)]) = requests p order ++ [(client.request, e)] := by
  simp [requests, h]

variable {s₀ : σ} {p : Pool σ π τ Answer ρ} {order : List (Nat × ε)}

theorem Ordered.spawn (h : S.Ordered Q s₀ p order) {r : τ}
    (hr : (S.start r).AtMostOnce S.isLocal Q) :
    S.Ordered Q s₀ { p with clients := p.clients ++ [⟨r, S.own r, S.start r⟩] } order := by
  have hsame : ∀ i ∈ order.map Prod.fst,
      (p.clients ++ [⟨r, S.own r, S.start r⟩])[i]? = p.clients[i]? := by
    intro i hi
    rw [List.getElem?_append_left (h.lt i hi)]
  have hrequests : ∀ order', order' <+: order →
      requests { p with clients := p.clients ++ [⟨r, S.own r, S.start r⟩] } order' =
        requests p order' := by
    intro order' hpre
    refine requests_congr fun i hi => ?_
    rw [hsame i ((hpre.map _).subset hi)]
  refine ⟨?_, h.nodup, fun i hi => ?_, fun i client hi hnot => ?_, ?_⟩
  · rw [hrequests order (List.prefix_refl _)]
    exact h.shared
  · rw [List.length_append]
    exact Nat.lt_add_right _ (h.lt i hi)
  · rcases Nat.lt_or_ge i p.clients.length with hlt | hge
    · rw [List.getElem?_append_left hlt] at hi
      exact h.pending i client hi hnot
    · rw [List.getElem?_append_right hge, List.getElem?_singleton] at hi
      split at hi
      · rw [← Option.some.inj hi]
        exact pending_start hr
      · cases hi
  · intro before i e after horder client hi
    have hmem : i ∈ order.map Prod.fst := by simp [horder]
    rw [hrequests before (horder ▸ List.prefix_append _ _)]
    exact h.passed before i e after horder client ((hsame i hmem).symm.trans hi)

section Called

variable {i : Nat} {e : ε} {s' : σ} {client client' : Client π τ Answer ρ}

/-- A thread goes on, and keeps its request. -/
theorem requests_set (hi : p.clients[i]? = some client) (hsame : client'.request = client.request)
    (order : List (Nat × ε)) :
    requests ⟨s', p.clients.set i client'⟩ order = requests p order := by
  refine requests_congr fun j _ => ?_
  by_cases hj : i = j
  · subst hj
    obtain ⟨hlt, -⟩ := List.getElem?_eq_some_iff.1 hi
    rw [List.getElem?_set_self hlt, hi, Option.map_some, Option.map_some, hsame]
  · rw [List.getElem?_set_ne hj]

/-- What a thread is after it has gone on, and the others have not. -/
theorem getElem?_set_cases {j : Nat} {client'' : Client π τ Answer ρ}
    (hj : (p.clients.set i client')[j]? = some client'') :
    (j = i ∧ client'' = client') ∨ (j ≠ i ∧ p.clients[j]? = some client'') := by
  by_cases hij : i = j
  · subst hij
    obtain ⟨hlt, -⟩ := List.getElem?_eq_some_iff.1 hj
    rw [List.length_set] at hlt
    rw [List.getElem?_set_self hlt] at hj
    exact Or.inl ⟨rfl, (Option.some.inj hj).symm⟩
  · rw [List.getElem?_set_ne hij] at hj
    exact Or.inr ⟨Ne.symm hij, hj⟩

/-- A local call. -/
theorem Ordered.step_local (h : S.Ordered Q s₀ p order) (hi : p.clients[i]? = some client)
    (hsame : client'.request = client.request)
    (hpending : S.Pending Q client → S.Pending Q client')
    (hpassed : ∀ e s, S.Passed e s client → S.Passed e s client') :
    S.Ordered Q s₀ ⟨p.shared, p.clients.set i client'⟩ order := by
  refine ⟨?_, h.nodup, fun j hj => ?_, fun j client'' hj hnot => ?_, ?_⟩
  · rw [requests_set hi hsame]
    exact h.shared
  · rw [List.length_set]
    exact h.lt j hj
  · rcases getElem?_set_cases hj with ⟨rfl, rfl⟩ | ⟨-, hj⟩
    · exact hpending (h.pending j client hi hnot)
    · exact h.pending j client'' hj hnot
  · intro before j e after horder client'' hj
    rw [requests_set hi hsame]
    rcases getElem?_set_cases hj with ⟨rfl, rfl⟩ | ⟨-, hj⟩
    · exact hpassed _ _ (h.passed before j e after horder client hi)
    · exact h.passed before j e after horder client'' hj

/-- The call of a thread that has not called yet. -/
theorem Ordered.step_shared (h : S.Ordered Q s₀ p order) (hi : p.clients[i]? = some client)
    (hsame : client'.request = client.request) (hnot : i ∉ order.map Prod.fst)
    (hpassed : S.Passed e p.shared client') (hs : s' = (S.alone client.request e p.shared).2.2) :
    S.Ordered Q s₀ ⟨s', p.clients.set i client'⟩ (order ++ [(i, e)]) := by
  obtain ⟨hlt, -⟩ := List.getElem?_eq_some_iff.1 hi
  refine ⟨?_, ?_, fun j hj => ?_, fun j client'' hj hnotj => ?_, ?_⟩
  · rw [requests_set hi hsame, requests_snoc hi, serial_snoc, ← h.shared]
    exact hs
  · rw [List.map_append, List.map_singleton]
    refine List.nodup_append.2 ⟨h.nodup, List.nodup_singleton i, fun j hj k hk => ?_⟩
    rw [List.mem_singleton.1 hk]
    rintro rfl
    exact hnot hj
  · rw [List.map_append, List.map_singleton] at hj
    rw [List.length_set]
    rcases List.mem_append.1 hj with hj | hj
    · exact h.lt j hj
    · rw [List.mem_singleton.1 hj]
      exact hlt
  · rw [List.map_append, List.mem_append, not_or] at hnotj
    rcases getElem?_set_cases hj with ⟨rfl, rfl⟩ | ⟨-, hj⟩
    · exact absurd (by simp) hnotj.2
    · exact h.pending j client'' hj hnotj.1
  · intro before j e' after horder client'' hj
    rw [requests_set hi hsame]
    rcases List.eq_nil_or_concat' after with rfl | ⟨after, x, rfl⟩
    · -- the call that has just been made
      obtain ⟨rfl, hlast⟩ := List.append_inj' horder rfl
      obtain ⟨rfl, rfl⟩ := Prod.mk.inj (List.singleton_inj.1 hlast)
      rcases getElem?_set_cases hj with ⟨-, rfl⟩ | ⟨hne, -⟩
      · rw [← h.shared]
        exact hpassed
      · exact absurd rfl hne
    · rw [← List.cons_append, ← List.append_assoc] at horder
      obtain ⟨horder, -⟩ := List.append_inj' horder rfl
      have hmem : j ∈ order.map Prod.fst := by simp [horder]
      rcases getElem?_set_cases hj with ⟨rfl, -⟩ | ⟨-, hj⟩
      · exact absurd hmem hnot
      · exact h.passed before j e' after horder client'' hj

end Called

/-- **One move keeps the order**, which the entry of the move extends. -/
theorem Ordered.move (h : S.Ordered Q s₀ p order) {m : Move τ ε}
    (hm : ∀ r, m = .spawn r → (S.start r).AtMostOnce S.isLocal Q) :
    S.Ordered Q s₀ (S.move p m) (order ++ (S.entry p m).toList) := by
  have hmoved := S.moved p m
  generalize S.move p m = p' at hmoved
  cases hmoved with
  | spawned r hentry =>
    rw [hentry, Option.toList_none, List.append_nil]
    exact h.spawn (hm r rfl)
  | idle m hentry =>
    rw [hentry, Option.toList_none, List.append_nil]
    exact h
  | @called i e r o a next hi hentry =>
    rw [hentry]
    by_cases ha : S.isLocal a = true
    · obtain ⟨-, -, hshared⟩ := S.exec_local a ha e e o p.shared p.shared
      rw [if_pos ha, Option.toList_none, List.append_nil, hshared]
      exact h.step_local hi rfl (fun hpending => hpending.step_local ha e p.shared)
        fun e₀ s₀ hpassed => hpassed.step e p.shared
    · rw [if_neg ha, Option.toList_some]
      have hnot : i ∉ order.map Prod.fst := by
        intro hmem
        obtain ⟨x, hx, rfl⟩ := List.mem_map.1 hmem
        obtain ⟨before, after, horder⟩ := List.append_of_mem hx
        exact ha (h.passed before x.1 x.2 after horder _ hi).rest_local.1
      obtain ⟨hpassed, hs⟩ :=
        (h.pending i _ hi hnot).step_shared (Bool.eq_false_iff.2 ha) e p.shared
      exact h.step_shared hi rfl hnot hpassed hs

/-! ## Runs -/

theorem ordered_of_run (hS : ∀ r, (S.start r).AtMostOnce S.isLocal Q)
    {steps : List (Pool σ π τ Answer ρ × Move τ ε)} (h : Run S.Step ⟨s₀, []⟩ steps p) :
    S.Ordered Q s₀ p (S.order steps) := by
  induction h with
  | nil =>
    refine ⟨rfl, List.nodup_nil, fun i hi => absurd hi List.not_mem_nil,
      fun i client hi => ?_, fun before i e after horder => ?_⟩
    · cases hi
    · exact absurd horder.symm (List.append_ne_nil_of_right_ne_nil _ (List.cons_ne_nil _ _))
  | @snoc steps p p' m _ hs ih =>
    unfold order at ih ⊢
    rw [filterMap_snoc, ← hs]
    exact ih.move fun r _ => hS r

/-- What a program that is run alone in this state would do is what the thread has done. -/
def Did (S : Clients σ π τ ε Answer ρ) (client : Client π τ Answer ρ) (r : ρ) (e : ε) (s s' : σ) :
    Prop :=
  S.alone client.request e s = (r, client.own, s')

/-- **Linearizability.** The shared state is the one that the programs of the order leave when they
are run one after the other, and a thread that has ended did what its program does in its turn, or
what it does in any state when it has no turn. -/
theorem linearizable (hS : ∀ r, (S.start r).AtMostOnce S.isLocal Q)
    {steps : List (Pool σ π τ Answer ρ × Move τ ε)} (h : Run S.Step ⟨s₀, []⟩ steps p) :
    p.shared = S.serial s₀ (requests p (S.order steps)) ∧
      ((S.order steps).map Prod.fst).Nodup ∧
      ∀ i client r, p.clients[i]? = some client → client.rest = .done r →
        (∃ before e after, S.order steps = before ++ (i, e) :: after ∧
          S.Did client r e (S.serial s₀ (requests p before))
            (S.serial s₀ (requests p (before ++ [(i, e)])))) ∨
        (i ∉ (S.order steps).map Prod.fst ∧ ∀ e s, S.Did client r e s s) := by
  have hordered := ordered_of_run hS h
  refine ⟨hordered.shared, hordered.nodup, fun i client r hi hdone => ?_⟩
  by_cases hmem : i ∈ (S.order steps).map Prod.fst
  · obtain ⟨⟨j, e⟩, hx, rfl⟩ := List.mem_map.1 hmem
    obtain ⟨before, after, horder⟩ := List.append_of_mem hx
    refine Or.inl ⟨before, e, after, horder, ?_⟩
    have hpassed := (hordered.passed before _ e after horder client hi).run_eq e s₀
    rw [hdone, Program.run_done] at hpassed
    obtain ⟨hresult, hown⟩ := Prod.mk.inj hpassed
    unfold Did
    rw [requests_snoc hi, serial_snoc]
    exact Prod.ext hresult.symm (Prod.ext (congrArg Prod.fst hown).symm rfl)
  · refine Or.inr ⟨hmem, fun e s => ?_⟩
    have hpending := (hordered.pending i client hi hmem).run_eq e s
    rw [hdone] at hpending
    exact hpending.symm

/-! ### Time -/

theorem run_unique {steps : List (Pool σ π τ Answer ρ × Move τ ε)} {p₀ p' : Pool σ π τ Answer ρ}
    (h : Run S.Step p₀ steps p) (h' : Run S.Step p₀ steps p') : p = p' := by
  cases h with
  | nil => exact h'.eq_of_nil.symm
  | snoc _ hs => exact hs.symm.trans h'.of_snoc.2

/-- The thread has ended. -/
def Ended (p : Pool σ π τ Answer ρ) (i : Nat) : Prop :=
  ∃ client r, p.clients[i]? = some client ∧ client.rest = .done r

theorem Ended.move {i : Nat} (h : Ended p i) (m : Move τ ε) :
    Ended (S.move p m) i ∧ ∀ x ∈ S.entry p m, x.1 ≠ i := by
  obtain ⟨client, r, hi, hdone⟩ := h
  have hmoved := S.moved p m
  generalize S.move p m = p' at hmoved
  cases hmoved with
  | spawned r' hentry =>
    obtain ⟨hlt, -⟩ := List.getElem?_eq_some_iff.1 hi
    refine ⟨⟨client, r, by rw [List.getElem?_append_left hlt]; exact hi, hdone⟩, fun x hx => ?_⟩
    rw [hentry] at hx
    cases hx
  | idle m hentry =>
    refine ⟨⟨client, r, hi, hdone⟩, fun x hx => ?_⟩
    rw [hentry] at hx
    cases hx
  | @called j e r' o a next hj hentry =>
    have hne : j ≠ i := by
      rintro rfl
      rw [hi] at hj
      rw [Option.some.inj hj] at hdone
      cases hdone
    refine ⟨⟨client, r, by rw [List.getElem?_set_ne hne]; exact hi, hdone⟩, fun x hx => ?_⟩
    rw [hentry] at hx
    split at hx
    · cases hx
    · rw [← Option.some.inj hx]
      exact hne

/-- A thread that has ended has no turn after that. -/
theorem order_after_ended {p₀ p' : Pool σ π τ Answer ρ}
    {steps steps' : List (Pool σ π τ Answer ρ × Move τ ε)} (h : Run S.Step p₀ steps p)
    (hpre : steps' <+: steps) (h' : Run S.Step p₀ steps' p') {i : Nat} (hended : Ended p' i) :
    Ended p i ∧ ∃ later, S.order steps = S.order steps' ++ later ∧ i ∉ later.map Prod.fst := by
  induction h with
  | nil =>
    obtain rfl := List.prefix_nil.1 hpre
    rw [h'.eq_of_nil] at hended
    exact ⟨hended, [], by simp, List.not_mem_nil⟩
  | @snoc steps p p'' m hr hs ih =>
    rcases List.prefix_concat_iff.1 hpre with heq | hpre
    · rw [heq] at h' ⊢
      rw [run_unique (hr.snoc hs) h']
      exact ⟨hended, [], by simp, List.not_mem_nil⟩
    · obtain ⟨hi, later, horder, hnot⟩ := ih hpre
      obtain ⟨hmove, hentry⟩ := hi.move (S := S) m
      refine ⟨hs ▸ hmove, later ++ (S.entry p m).toList, ?_, ?_⟩
      · unfold order at horder ⊢
        rw [filterMap_snoc, horder, List.append_assoc]
      · rw [List.map_append, List.mem_append, not_or]
        refine ⟨hnot, fun hmem => ?_⟩
        obtain ⟨x, hx, rfl⟩ := List.mem_map.1 hmem
        exact hentry x (Option.mem_toList.1 hx) rfl

/-- **The order agrees with time**: a thread that had ended before another one was started does not
come after it. -/
theorem order_of_ended (hS : ∀ r, (S.start r).AtMostOnce S.isLocal Q) {p' : Pool σ π τ Answer ρ}
    {steps steps' : List (Pool σ π τ Answer ρ × Move τ ε)} (h : Run S.Step ⟨s₀, []⟩ steps p)
    (hpre : steps' <+: steps) (h' : Run S.Step ⟨s₀, []⟩ steps' p') {i j : Nat}
    (hended : Ended p' i) (hnew : p'.clients.length ≤ j) {before after : List (Nat × ε)} {e : ε}
    (horder : S.order steps = before ++ (j, e) :: after) : i ∉ after.map Prod.fst := by
  obtain ⟨-, later, hlater, hnot⟩ := order_after_ended h hpre h' hended
  have hnotj : (j, e) ∉ S.order steps' := by
    intro hmem
    have hlt := (ordered_of_run hS h').lt j (List.mem_map.2 ⟨(j, e), hmem, rfl⟩)
    omega
  obtain ⟨between, hbetween⟩ : ∃ between, later = between ++ (j, e) :: after := by
    rw [hlater] at horder
    rcases List.append_eq_append_iff.1 horder with ⟨between, -, hlater⟩ | ⟨cut, hcut, hrest⟩
    · exact ⟨between, hlater⟩
    · cases cut with
      | nil => exact ⟨[], hrest.symm⟩
      | cons x cut =>
        obtain ⟨rfl, -⟩ := List.cons.inj hrest
        exact absurd (hcut ▸ List.mem_append_right _ List.mem_cons_self) hnotj
  intro hmem
  refine hnot ?_
  rw [hbetween, List.map_append, List.map_cons]
  exact List.mem_append_right _ (List.mem_cons_of_mem _ hmem)

end Clients

end DistributedSystems.Support
