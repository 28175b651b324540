import DistributedSystems.Support.Traces

/-!
# Outcomes of a program

Programs whose calls have more than one answer. `act a s x s'` says that the call `a`, made in the
state `s`, may answer `x` and leave `s'`, and `Ends` collects what a program may do under it: its
events, its result and the state it leaves. The runs of a system that answers in one way are among
the outcomes (`Ends.of_run`), and a program all of whose calls have some answer has an outcome
(`exists_ends`).
-/

namespace DistributedSystems.Support

namespace Program

variable {σ κ ρ ρ' : Type} {Answer : κ → Type} {act : (a : κ) → σ → Answer a → σ → Prop}

/-- From the state `s` the program may go through these events and end with `r` in `s'`. -/
inductive Ends (act : (a : κ) → σ → Answer a → σ → Prop) :
    Program Answer ρ → σ → List (Event Answer) → ρ → σ → Prop
  | done (r : ρ) (s : σ) : Ends act (.done r) s [] r s
  | call {a : κ} {next : Answer a → Program Answer ρ} {s u s' : σ} {x : Answer a}
      {events : List (Event Answer)} {r : ρ} (ha : act a s x u)
      (h : Ends act (next x) u events r s') : Ends act (.call a next) s (⟨a, x⟩ :: events) r s'

variable {s s' : σ} {events : List (Event Answer)}

theorem ends_done_iff {r r' : ρ} :
    Ends act (.done r : Program Answer ρ) s events r' s' ↔ events = [] ∧ r' = r ∧ s' = s := by
  constructor
  · intro h
    cases h with
    | done => exact ⟨rfl, rfl, rfl⟩
  · rintro ⟨rfl, rfl, rfl⟩
    exact .done _ _

theorem ends_call_iff {a : κ} {next : Answer a → Program Answer ρ} {r : ρ} :
    Ends act (.call a next) s events r s' ↔
      ∃ x u rest, events = ⟨a, x⟩ :: rest ∧ act a s x u ∧ Ends act (next x) u rest r s' := by
  constructor
  · intro h
    cases h with
    | call ha h => exact ⟨_, _, _, rfl, ha, h⟩
  · rintro ⟨x, u, rest, rfl, ha, h⟩
    exact .call ha h

/-- The outcomes of two programs in turn. -/
theorem ends_bind_iff {program : Program Answer ρ} {k : ρ → Program Answer ρ'} {r' : ρ'} :
    Ends act (program.bind k) s events r' s' ↔
      ∃ before after r u, events = before ++ after ∧ Ends act program s before r u ∧
        Ends act (k r) u after r' s' := by
  constructor
  · intro h
    induction program generalizing s events with
    | done r => exact ⟨[], events, r, s, rfl, .done r s, h⟩
    | call a next ih =>
      obtain ⟨x, v, rest, rfl, ha, h⟩ := ends_call_iff.1 h
      obtain ⟨before, after, r, u, rfl, hfirst, hsecond⟩ := ih x h
      exact ⟨⟨a, x⟩ :: before, after, r, u, rfl, .call ha hfirst, hsecond⟩
  · rintro ⟨before, after, r, u, rfl, hfirst, hsecond⟩
    induction hfirst with
    | done r s => exact hsecond
    | call ha _ ih => exact .call ha (ih hsecond)

/-- Of two programs in turn, each may be replaced by one that does what it does where it is run. -/
theorem Ends.bind_mono {program program' : Program Answer ρ}
    {k k' : ρ → Program Answer ρ'} {r' : ρ'}
    (hfirst : ∀ before r u, Ends act program s before r u → Ends act program' s before r u)
    (hsecond : ∀ before r u, Ends act program s before r u →
      ∀ after, Ends act (k r) u after r' s' → Ends act (k' r) u after r' s')
    (h : Ends act (program.bind k) s events r' s') :
    Ends act (program'.bind k') s events r' s' := by
  obtain ⟨before, after, r, u, rfl, h, h'⟩ := ends_bind_iff.1 h
  exact ends_bind_iff.2
    ⟨before, after, r, u, rfl, hfirst before r u h, hsecond before r u h after h'⟩

/-- A program does not get stuck when none of its calls does. -/
theorem exists_ends {Q : κ → Prop} (hQ : ∀ a, Q a → ∀ s, ∃ x s', act a s x s')
    {program : Program Answer ρ} (h : program.Always fun a _ => Q a) (s : σ) :
    ∃ events r s', Ends act program s events r s' := by
  induction program generalizing s with
  | done r => exact ⟨[], r, s, .done r s⟩
  | call a next ih =>
    obtain ⟨x, u, ha⟩ := hQ a h.1 s
    obtain ⟨events, r, s', hend⟩ := ih x (h.2 x) u
    exact ⟨⟨a, x⟩ :: events, r, s', .call ha hend⟩

/-- A run of a system whose answers are allowed is an outcome. `f` is the part of its states that
the answers depend on. -/
theorem Ends.of_run {τ : Type} {exec : (a : κ) → τ → Answer a × τ} {f : τ → σ} {Q : κ → Prop}
    (hQ : ∀ a, Q a → ∀ w, act a (f w) (exec a w).1 (f (exec a w).2))
    {program : Program Answer ρ} (h : program.Always fun a _ => Q a) (w : τ) :
    Ends act program (f w) (program.trace exec w) (program.run exec w).1
      (f (program.run exec w).2) := by
  induction program generalizing w with
  | done r => exact .done r (f w)
  | call a next ih => exact .call (hQ a h.1 w) (ih _ (h.2 _) _)

end Program

end DistributedSystems.Support
