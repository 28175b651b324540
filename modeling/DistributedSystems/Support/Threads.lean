import DistributedSystems.Support.Runs

/-!
# Threads

Any number of threads over one shared state. The program of a thread is a tree of atomic calls that
branches on their answers, so that what is left of a program is again a program. A move of the pool
starts a thread or lets one take its next call; `Moved` are the outcomes of a move, and `Came` says
where one thread has come from. What every call of the started programs meets is kept by all threads
(`always_move`), a program run alone is one of the schedules (`exists_run_alone`), and `sinceCall`
is what has been done since a thread took one of its calls.
-/

namespace DistributedSystems.Support

/-- A result, or a call with what follows each of its answers. -/
inductive Program {κ : Type} (Answer : κ → Type) (ρ : Type)
  | done (result : ρ)
  | call (action : κ) (next : Answer action → Program Answer ρ)

variable {σ τ ε κ ρ : Type} {Answer : κ → Type}

namespace Program

/-- The call that comes next. -/
def action? : Program Answer ρ → Option κ
  | done _ => none
  | call a _ => some a

def result? : Program Answer ρ → Option ρ
  | done r => some r
  | call _ _ => none

/-- The program with no other thread between its calls. -/
def run (exec : (a : κ) → σ → Answer a × σ) : Program Answer ρ → σ → ρ × σ
  | done r, s => (r, s)
  | call a next, s => (next (exec a s).1).run exec (exec a s).2

/-- The program, and then one that goes on from its result. -/
def bind {ρ' : Type} : Program Answer ρ → (ρ → Program Answer ρ') → Program Answer ρ'
  | done r, k => k r
  | call a next, k => call a fun x => (next x).bind k

theorem run_bind {ρ' : Type} (exec : (a : κ) → σ → Answer a × σ) (program : Program Answer ρ)
    (k : ρ → Program Answer ρ') (s : σ) :
    (program.bind k).run exec s =
      (k (program.run exec s).1).run exec (program.run exec s).2 := by
  induction program generalizing s with
  | done r => rfl
  | call a next ih => exact ih (exec a s).1 (exec a s).2

/-- Every call of the program, with what follows it, meets the condition. -/
def Always (P : (a : κ) → (Answer a → Program Answer ρ) → Prop) : Program Answer ρ → Prop
  | done _ => True
  | call a next => P a next ∧ ∀ x, (next x).Always P

theorem Always.imp {P Q : (a : κ) → (Answer a → Program Answer ρ) → Prop}
    (hPQ : ∀ a next, P a next → Q a next) {program : Program Answer ρ} (h : program.Always P) :
    program.Always Q := by
  induction program with
  | done r => trivial
  | call a next ih => exact ⟨hPQ a next h.1, fun x => ih x (h.2 x)⟩

/-- A condition on the calls alone holds of two programs in turn when it does of each. -/
theorem always_bind {ρ' : Type} {Q : κ → Prop} {program : Program Answer ρ}
    {k : ρ → Program Answer ρ'} (h : program.Always fun a _ => Q a)
    (hk : ∀ r, (k r).Always fun a _ => Q a) : (program.bind k).Always fun a _ => Q a := by
  induction program with
  | done r => exact hk r
  | call a next ih => exact ⟨h.1, fun x => ih x (h.2 x)⟩

end Program

/-- What a thread was started for, and what is left of its program. -/
structure Thread (τ : Type) {κ : Type} (Answer : κ → Type) (ρ : Type) where
  request : τ
  rest : Program Answer ρ

structure Pool (σ τ : Type) {κ : Type} (Answer : κ → Type) (ρ : Type) where
  shared : σ
  threads : List (Thread τ Answer ρ)

namespace Pool

/-- Every call that a thread still has in front of it meets the condition for its request. -/
def Always (P : τ → (a : κ) → (Answer a → Program Answer ρ) → Prop) (p : Pool σ τ Answer ρ) :
    Prop :=
  ∀ t ∈ p.threads, t.rest.Always (P t.request)

/-- The next call of a thread. -/
theorem Always.call {P : τ → (a : κ) → (Answer a → Program Answer ρ) → Prop} {p : Pool σ τ Answer ρ}
    (h : p.Always P) {before after : List (Thread τ Answer ρ)} {r : τ} {a : κ}
    {next : Answer a → Program Answer ρ} (ht : p.threads = before ++ ⟨r, .call a next⟩ :: after) :
    P r a next := by
  have hthread := h ⟨r, .call a next⟩ (by rw [ht]; simp)
  exact hthread.1

/-- Every thread has ended. -/
def Quiescent (p : Pool σ τ Answer ρ) : Prop := ∀ t ∈ p.threads, t.rest.action? = none

instance [DecidableEq κ] (p : Pool σ τ Answer ρ) : Decidable p.Quiescent :=
  inferInstanceAs (Decidable (∀ t ∈ p.threads, t.rest.action? = none))

end Pool

/-- A thread is started for a request, or the `i`-th thread takes its next call, under conditions
that may be other ones each time. -/
inductive Move (τ ε : Type)
  | spawn (request : τ)
  | run (i : Nat) (env : ε)

/-- The threads that a move leaves alone. -/
def Pool.others (p : Pool σ τ Answer ρ) : Move τ ε → List (Thread τ Answer ρ)
  | .spawn _ => p.threads
  | .run i _ => p.threads.eraseIdx i

theorem Pool.others_run {p : Pool σ τ Answer ρ} {before after : List (Thread τ Answer ρ)}
    {t : Thread τ Answer ρ} (ht : p.threads = before ++ t :: after) (env : ε) :
    p.others (.run (τ := τ) before.length env) = before ++ after := by
  change p.threads.eraseIdx before.length = before ++ after
  rw [ht, List.eraseIdx_append_of_length_le (Nat.le_refl _), Nat.sub_self]
  rfl

/-- The request that a move starts a thread for. -/
def Move.spawned? : Move τ ε → Option τ
  | .spawn r => some r
  | .run _ _ => none

/-- The `i`-th thread is the one that runs. -/
def Move.runs (i : Nat) : Move τ ε → Bool
  | .spawn _ => false
  | .run j _ => j = i

/-- The programs of the requests and the effect of a call. -/
structure System (σ τ ε : Type) {κ : Type} (Answer : κ → Type) (ρ : Type) where
  start : τ → Program Answer ρ
  exec : ε → (a : κ) → σ → Answer a × σ

namespace System

variable (S : System σ τ ε Answer ρ) (p : Pool σ τ Answer ρ)

def move : Move τ ε → Pool σ τ Answer ρ
  | .spawn r => { p with threads := p.threads ++ [⟨r, S.start r⟩] }
  | .run i env =>
    match p.threads[i]? with
    | some ⟨r, .call a next⟩ =>
      let x := S.exec env a p.shared
      ⟨x.2, p.threads.set i ⟨r, next x.1⟩⟩
    | _ => p

/-- The call that a move makes, with the request of its thread. -/
def called : Move τ ε → Option (τ × κ)
  | .spawn _ => none
  | .run i _ =>
    match p.threads[i]? with
    | some ⟨r, .call a _⟩ => some (r, a)
    | _ => none

/-- The result that a move ends its thread with, with the request of the thread. -/
def returned : Move τ ε → Option (τ × ρ)
  | .spawn _ => none
  | .run i env =>
    match p.threads[i]? with
    | some ⟨r, .call a next⟩ => (next (S.exec env a p.shared).1).result?.map (r, ·)
    | _ => none

def Step (p : Pool σ τ Answer ρ) (m : Move τ ε) (p' : Pool σ τ Answer ρ) : Prop :=
  S.move p m = p'

/-- A move that is one of those allowed. -/
def StepIn (C : Move τ ε → Prop) (p : Pool σ τ Answer ρ) (m : Move τ ε) (p' : Pool σ τ Answer ρ) :
    Prop :=
  C m ∧ S.Step p m p'

/-! ## One move -/

/-- The outcomes of a move. -/
inductive Moved : Move τ ε → Pool σ τ Answer ρ → Prop
  | spawned (r : τ) : Moved (.spawn r) { p with threads := p.threads ++ [⟨r, S.start r⟩] }
  /-- There is no such thread, or it has ended. -/
  | idle (i : Nat) (env : ε) (hc : called p (.run (τ := τ) i env) = none)
      (hr : S.returned p (.run i env) = none) : Moved (.run i env) p
  | called (env : ε) {before after : List (Thread τ Answer ρ)} {r : τ} {a : κ}
      {next : Answer a → Program Answer ρ}
      (ht : p.threads = before ++ ⟨r, .call a next⟩ :: after)
      (hc : called p (.run (τ := τ) before.length env) = some (r, a))
      (hr : S.returned p (.run before.length env) =
        (next (S.exec env a p.shared).1).result?.map (r, ·)) :
      Moved (.run before.length env)
        ⟨(S.exec env a p.shared).2,
          before ++ ⟨r, next (S.exec env a p.shared).1⟩ :: after⟩

theorem moved (m : Move τ ε) : S.Moved p m (S.move p m) := by
  cases m with
  | spawn r => exact .spawned r
  | run i env =>
    cases ht : p.threads[i]? with
    | none =>
      have hmove : S.move p (.run i env) = p := by simp only [move, ht]
      rw [hmove]
      exact .idle i env (by simp only [System.called, ht]) (by simp only [returned, ht])
    | some t =>
      obtain ⟨r, rest⟩ := t
      cases rest with
      | done x =>
        have hmove : S.move p (.run i env) = p := by simp only [move, ht]
        rw [hmove]
        exact .idle i env (by simp only [System.called, ht]) (by simp only [returned, ht])
      | call a next =>
        obtain ⟨hi, hget⟩ := List.getElem?_eq_some_iff.1 ht
        have hsplit : p.threads =
            p.threads.take i ++ ⟨r, .call a next⟩ :: p.threads.drop (i + 1) := by
          rw [← hget, List.getElem_cons_drop, List.take_append_drop]
        have hlen : (p.threads.take i).length = i := by
          rw [List.length_take]; omega
        have hmove : S.move p (.run i env) = ⟨(S.exec env a p.shared).2,
            p.threads.take i ++ ⟨r, next (S.exec env a p.shared).1⟩ :: p.threads.drop (i + 1)⟩ := by
          simp only [move, ht, List.set_eq_take_append_cons_drop, if_pos hi]
        have hmoved := Moved.called (S := S) (p := p) env hsplit
        rw [hlen, ← hmove] at hmoved
        exact hmoved (by simp only [System.called, ht]) (by simp only [returned, ht])

/-- The thread that takes a call. -/
theorem exists_of_called {i : Nat} {env : ε} {r : τ} {a : κ}
    (hc : called p (.run (τ := τ) i env) = some (r, a)) :
    ∃ next, p.threads[i]? = some ⟨r, .call a next⟩ := by
  cases ht : p.threads[i]? with
  | none => simp only [called, ht] at hc; cases hc
  | some t =>
    obtain ⟨r', rest⟩ := t
    cases rest with
    | done x => simp only [called, ht] at hc; cases hc
    | call a' next =>
      simp only [called, ht] at hc
      cases hc
      exact ⟨next, rfl⟩

theorem shared_move {i : Nat} {r : τ} {a : κ} {next : Answer a → Program Answer ρ}
    (ht : p.threads[i]? = some ⟨r, .call a next⟩) (env : ε) :
    (S.move p (.run i env)).shared = (S.exec env a p.shared).2 := by
  simp only [move, ht]

/-- Where the `i`-th thread has come from with a move: the move is no call of it, the move has
started it, or the move is its call. -/
inductive Came (i : Nat) : Move τ ε → Thread τ Answer ρ → Prop
  | stayed {m : Move τ ε} {t : Thread τ Answer ρ} (ht : p.threads[i]? = some t)
      (hm : m.runs i = true → called p m = none) : Came i m t
  | started (r : τ) : Came i (.spawn r) ⟨r, S.start r⟩
  | called (env : ε) {r : τ} {a : κ} {next : Answer a → Program Answer ρ}
      (ht : p.threads[i]? = some ⟨r, .call a next⟩)
      (hc : called p (.run (τ := τ) i env) = some (r, a)) :
      Came i (.run i env) ⟨r, next (S.exec env a p.shared).1⟩

theorem came {i : Nat} {m : Move τ ε} {t : Thread τ Answer ρ}
    (h : (S.move p m).threads[i]? = some t) : S.Came p i m t := by
  cases m with
  | spawn r =>
    have h : (p.threads ++ [⟨r, S.start r⟩])[i]? = some t := h
    by_cases hi : i < p.threads.length
    · rw [List.getElem?_append_left hi] at h
      exact .stayed h fun hm => by cases hm
    · rw [List.getElem?_append_right (Nat.not_lt.1 hi)] at h
      rw [List.mem_singleton.1 (List.mem_of_getElem? h)]
      exact .started r
  | run j env =>
    by_cases hj : j = i
    · subst hj
      cases ht : p.threads[j]? with
      | none =>
        rw [show S.move p (.run j env) = p by simp only [move, ht], ht] at h
        cases h
      | some t' =>
        obtain ⟨r, rest⟩ := t'
        cases rest with
        | done x =>
          rw [show S.move p (.run j env) = p by simp only [move, ht]] at h
          exact .stayed h fun _ => by simp only [System.called, ht]
        | call a next =>
          obtain ⟨hlt, -⟩ := List.getElem?_eq_some_iff.1 ht
          simp only [move, ht, List.getElem?_set_self hlt, Option.some.injEq] at h
          subst h
          exact .called env ht (by simp only [System.called, ht])
    · have hstay : (S.move p (.run j env)).threads[i]? = p.threads[i]? := by
        simp only [move]
        split
        · exact List.getElem?_set_ne hj
        · rfl
      exact .stayed (hstay ▸ h) fun hm => absurd (of_decide_eq_true hm) hj

/-- What the programs of all requests meet, all threads meet after a move. -/
theorem always_move {P : τ → (a : κ) → (Answer a → Program Answer ρ) → Prop} {m : Move τ ε}
    (hstart : ∀ r, m = .spawn r → (S.start r).Always (P r)) (h : p.Always P) :
    (S.move p m).Always P := by
  have hm := S.moved p m
  generalize S.move p m = p' at hm
  intro t ht
  cases hm with
  | spawned r =>
    rcases List.mem_append.1 ht with ht | ht
    · exact h t ht
    · rw [List.mem_singleton.1 ht]; exact hstart r rfl
  | idle i env => exact h t ht
  | @called env before after r a next hthreads =>
    have hmem : ∀ t, t ∈ before ∨ t ∈ after → t ∈ p.threads := by
      intro t ht
      rw [hthreads, List.mem_append, List.mem_cons]
      exact ht.imp_right Or.inr
    rcases List.mem_append.1 ht with ht | ht
    · exact h t (hmem t (Or.inl ht))
    rcases List.mem_cons.1 ht with rfl | ht
    · have hcall := h ⟨r, .call a next⟩ (by rw [hthreads]; simp)
      exact hcall.2 _
    · exact h t (hmem t (Or.inr ht))

/-! ## Since a call -/

/-- The move is a call of the `i`-th thread, one of those picked. -/
def calls (i : Nat) (picks : κ → Bool) (p : Pool σ τ Answer ρ) (m : Move τ ε) : Bool :=
  m.runs i && (called p m).any fun c => picks c.2

/-- What has been done since the `i`-th thread last took one of the calls that are picked. -/
def sinceCall (i : Nat) (picks : κ → Bool) (steps : List (Pool σ τ Answer ρ × Move τ ε)) :
    List (Pool σ τ Answer ρ × Move τ ε) :=
  since (fun x => calls i picks x.1 x.2) steps

section SinceCall

variable {p} {i : Nat} {picks : κ → Bool} {steps : List (Pool σ τ Answer ρ × Move τ ε)}

theorem sinceCall_snoc {m : Move τ ε} (h : calls i picks p m = false) :
    sinceCall i picks (steps ++ [(p, m)]) = sinceCall i picks steps ++ [(p, m)] := by
  unfold sinceCall
  rw [since_snoc, h]
  rfl

theorem calls_eq_false_of_stayed {m : Move τ ε} (h : m.runs i = true → called p m = none) :
    calls i picks p m = false := by
  unfold calls
  cases hm : m.runs i with
  | false => rfl
  | true => rw [h hm]; rfl

theorem calls_eq_false_of_unpicked {m : Move τ ε} {r : τ} {a : κ} (hc : called p m = some (r, a))
    (ha : picks a = false) : calls i picks p m = false := by
  simp [calls, hc, ha]

theorem sinceCall_snoc_of_picked {env : ε} {r : τ} {a : κ}
    (hc : called p (.run (τ := τ) i env) = some (r, a)) (ha : picks a = true) :
    sinceCall i picks (steps ++ [(p, .run i env)]) = [] := by
  have hcalls : calls i picks p (.run (τ := τ) i env) = true := by
    unfold calls
    rw [hc]
    simp [Move.runs, ha]
  unfold sinceCall
  rw [since_snoc, hcalls]
  rfl

end SinceCall

/-! ## Schedules -/

/-- The steps of the moves, made in order. -/
def schedule (p : Pool σ τ Answer ρ) :
    List (Move τ ε) → List (Pool σ τ Answer ρ × Move τ ε)
  | [] => []
  | m :: ms => (p, m) :: schedule (S.move p m) ms

theorem run_schedule_in {C : Move τ ε → Prop} (ms : List (Move τ ε)) (hC : ∀ m ∈ ms, C m) :
    Run (S.StepIn C) p (S.schedule p ms) (ms.foldl S.move p) := by
  induction ms generalizing p with
  | nil => exact .nil
  | cons m ms ih =>
    obtain ⟨hm, hms⟩ := List.forall_mem_cons.1 hC
    exact (ih (S.move p m) hms).cons ⟨hm, rfl⟩

theorem run_schedule (ms : List (Move τ ε)) :
    Run S.Step p (S.schedule p ms) (ms.foldl S.move p) :=
  (S.run_schedule_in p (C := fun _ => True) ms fun _ _ => trivial).mono fun _ _ _ => And.right

theorem schedule_append (ms ms' : List (Move τ ε)) :
    S.schedule p (ms ++ ms') = S.schedule p ms ++ S.schedule (ms.foldl S.move p) ms' := by
  induction ms generalizing p with
  | nil => rfl
  | cons m ms ih => exact congrArg ((p, m) :: ·) (ih (S.move p m))

/-- The last step of a schedule. -/
theorem mem_schedule_snoc (ms : List (Move τ ε)) (m : Move τ ε) :
    (ms.foldl S.move p, m) ∈ S.schedule p (ms ++ [m]) := by
  rw [schedule_append]
  exact List.mem_append_right _ (List.mem_singleton_self _)

/-- **A program run alone is a schedule**: if the thread takes all its calls in a row, it ends with
the result and leaves the state of its run. -/
theorem exists_run_alone (env : ε) (r : τ) (before after : List (Thread τ Answer ρ))
    (program : Program Answer ρ) (s : σ) :
    ∃ steps, Run S.Step ⟨s, before ++ ⟨r, program⟩ :: after⟩ steps
      ⟨(program.run (S.exec env) s).2,
        before ++ ⟨r, .done (program.run (S.exec env) s).1⟩ :: after⟩ := by
  induction program generalizing s with
  | done x => exact ⟨[], .nil⟩
  | call a next ih =>
    obtain ⟨steps, hrun⟩ := ih (S.exec env a s).1 (S.exec env a s).2
    have hstep : S.Step ⟨s, before ++ ⟨r, .call a next⟩ :: after⟩ (.run before.length env)
        ⟨(S.exec env a s).2, before ++ ⟨r, next (S.exec env a s).1⟩ :: after⟩ := by
      simp [Step, move]
    exact ⟨_, hrun.cons hstep⟩

end System

end DistributedSystems.Support
