import DistributedSystems.Support.Threads

/-!
# Requests that take effect at their last call

A thread resumes its request when what is left of its program, run alone from the shared state,
gives what the whole program would give. While all threads do, and no call but the last one of a
thread changes the shared state, a request is served at once by the call that ends its thread
(`atomic_of_resumes`), and the requests that have ended in a run are served one after the other in
the order in which they ended (`serial_of_atomic`).
-/

namespace DistributedSystems.Support

variable {σ τ ε κ ρ : Type} {Answer : κ → Type}

namespace System

variable (S : System σ τ ε Answer ρ) (env : ε)

/-- A request with no other thread at work. -/
def serveAlone (r : τ) (s : σ) : ρ × σ := (S.start r).run (S.exec env) s

/-- The thread has ended, or would give what its request served from here on would give. -/
def Resumes (s : σ) (r : τ) (rest : Program Answer ρ) : Prop :=
  rest.action? = none ∨ rest.run (S.exec env) s = S.serveAlone env r s

/-- A move that ends a request serves the whole of it, and any other leaves the shared state. -/
def Atomic (p : Pool σ τ Answer ρ) (m : Move τ ε) : Prop :=
  match S.returned p m with
  | none => (S.move p m).shared = p.shared
  | some (r, result) => S.serveAlone env r p.shared = (result, (S.move p m).shared)

/-- The requests that have ended in a run, in this order, with their results. -/
def ended (steps : List (Pool σ τ Answer ρ × Move τ ε)) : List (τ × ρ) :=
  steps.filterMap fun x => S.returned x.1 x.2

/-- The requests are served one after the other with these results. -/
inductive Serial (s₀ : σ) : List (τ × ρ) → σ → Prop
  | nil : Serial s₀ [] s₀
  | snoc {history : List (τ × ρ)} {s s' : σ} {r : τ} {result : ρ} :
      Serial s₀ history s → S.serveAlone env r s = (result, s') →
        Serial s₀ (history ++ [(r, result)]) s'

variable {S env} {p : Pool σ τ Answer ρ} {m : Move τ ε}

/-- The last call of a thread that resumes its request serves it. -/
theorem Resumes.last {s : σ} {r : τ} {a : κ} {next : Answer a → Program Answer ρ} {result : ρ}
    (h : S.Resumes env s r (.call a next))
    (hresult : (next (S.exec env a s).1).result? = some result) :
    S.serveAlone env r s = (result, (S.exec env a s).2) := by
  rcases h with h | h
  · cases h
  · rw [← h, Program.run]
    cases hnext : next (S.exec env a s).1 with
    | done result' =>
      rw [hnext] at hresult
      obtain rfl := Option.some.inj hresult
      rfl
    | call a' next' =>
      rw [hnext] at hresult
      cases hresult

theorem atomic_of_resumes
    (h : ∀ i e r a next, m = .run i e → p.threads[i]? = some ⟨r, .call a next⟩ → e = env ∧
      match (next (S.exec env a p.shared).1).result? with
      | none => (S.exec env a p.shared).2 = p.shared
      | some _ => S.Resumes env p.shared r (.call a next)) : S.Atomic env p m := by
  unfold Atomic
  have hmoved := S.moved p m
  generalize S.move p m = p' at hmoved
  cases hmoved with
  | spawned r => rfl
  | idle i e hc hr => rw [hr]
  | @called e before after r a next ht hc hr =>
    obtain ⟨rfl, hcall⟩ := h before.length e r a next rfl (by rw [ht]; simp)
    cases hresult : (next (S.exec e a p.shared).1).result? with
    | none =>
      rw [hresult] at hcall
      rw [hresult, Option.map_none] at hr
      rw [hr]
      exact hcall
    | some result =>
      rw [hresult] at hcall
      rw [hresult, Option.map_some] at hr
      rw [hr]
      exact hcall.last hresult

theorem ended_snoc (steps : List (Pool σ τ Answer ρ × Move τ ε)) (p : Pool σ τ Answer ρ)
    (m : Move τ ε) :
    S.ended (steps ++ [(p, m)]) = S.ended steps ++ (S.returned p m).toList := by
  unfold ended
  rw [List.filterMap_append]
  cases h : S.returned p m with
  | none => simp [h]
  | some x => simp [h]

theorem serial_of_atomic {s₀ : σ} {history : List (τ × ρ)} (h : S.Serial env s₀ history p.shared)
    (ha : S.Atomic env p m) :
    S.Serial env s₀ (history ++ (S.returned p m).toList) (S.move p m).shared := by
  unfold Atomic at ha
  cases hr : S.returned p m with
  | none =>
    rw [hr] at ha
    rw [Option.toList_none, List.append_nil, ha]
    exact h
  | some x =>
    obtain ⟨r, result⟩ := x
    rw [hr] at ha
    exact h.snoc ha

end System

end DistributedSystems.Support
