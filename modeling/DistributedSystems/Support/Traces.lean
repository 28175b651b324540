import DistributedSystems.Support.Threads

/-!
# Traces

What a program has called when it runs, each call with its answer, and monitors of that: automata
that go over a trace and stop at the first call that breaks their rule. A program that keeps a rule
leads a monitor from one state to another (`Leads`), and the rules for programs in sequence put such
facts together.
-/

namespace DistributedSystems.Support

variable {σ κ ρ μ : Type} {Answer : κ → Type}

/-- A call and its answer. -/
abbrev Event (Answer : κ → Type) : Type := Σ a, Answer a

namespace Program

/-- The calls of a run, in order. -/
def trace (exec : (a : κ) → σ → Answer a × σ) : Program Answer ρ → σ → List (Event Answer)
  | done _, _ => []
  | call a next, s => ⟨a, (exec a s).1⟩ :: (next (exec a s).1).trace exec (exec a s).2

variable {exec : (a : κ) → σ → Answer a × σ}

@[simp] theorem trace_done (r : ρ) (s : σ) :
    (done r : Program Answer ρ).trace exec s = [] := rfl

@[simp] theorem trace_call (a : κ) (next : Answer a → Program Answer ρ) (s : σ) :
    (call a next).trace exec s =
      ⟨a, (exec a s).1⟩ :: (next (exec a s).1).trace exec (exec a s).2 := rfl

@[simp] theorem run_done (r : ρ) (s : σ) : (done r : Program Answer ρ).run exec s = (r, s) := rfl

@[simp] theorem run_call (a : κ) (next : Answer a → Program Answer ρ) (s : σ) :
    (call a next).run exec s = (next (exec a s).1).run exec (exec a s).2 := rfl

/-- The calls of a program, and then of what its result leads to. -/
theorem trace_bind {ρ' : Type} (program : Program Answer ρ) (k : ρ → Program Answer ρ') (s : σ) :
    (program.bind k).trace exec s =
      program.trace exec s ++ (k (program.run exec s).1).trace exec (program.run exec s).2 := by
  induction program generalizing s with
  | done r => rfl
  | call a next ih => exact congrArg (⟨a, (exec a s).1⟩ :: ·) (ih (exec a s).1 (exec a s).2)

/-- What none of its calls changes, the program does not change. -/
theorem run_of_always {β : Type} {f : σ → β} {Q : κ → Prop}
    (hQ : ∀ a, Q a → ∀ s, f (exec a s).2 = f s) {program : Program Answer ρ}
    (h : program.Always fun a _ => Q a) (s : σ) : f (program.run exec s).2 = f s := by
  induction program generalizing s with
  | done r => rfl
  | call a next ih => exact (ih _ (h.2 _) _).trans (hQ a h.1 s)

/-- What holds of all calls of a program holds of those of a run. -/
theorem of_mem_trace {Q : κ → Prop} {program : Program Answer ρ}
    (h : program.Always fun a _ => Q a) {s : σ} {e : Event Answer}
    (he : e ∈ program.trace exec s) : Q e.1 := by
  induction program generalizing s with
  | done r => exact absurd he List.not_mem_nil
  | call a next ih =>
    rcases List.mem_cons.1 he with rfl | he
    · exact h.1
    · exact ih _ (h.2 _) he

/-- What every call keeps, the program keeps. -/
theorem keeps_of_always {I : σ → Prop} {Q : κ → Prop}
    (hI : ∀ a, Q a → ∀ s, I s → I (exec a s).2) {program : Program Answer ρ}
    (h : program.Always fun a _ => Q a) {s : σ} (hs : I s) : I (program.run exec s).2 := by
  induction program generalizing s with
  | done r => exact hs
  | call a next ih => exact ih _ (h.2 _) (hI a h.1 s hs)

/-- Every result of the program meets the condition. -/
def Returns (P : ρ → Prop) : Program Answer ρ → Prop
  | done r => P r
  | call _ next => ∀ x, (next x).Returns P

/-- What a program can only return, it returns. -/
theorem Returns.run {P : ρ → Prop} {program : Program Answer ρ} (h : program.Returns P) (s : σ) :
    P (program.run exec s).1 := by
  induction program generalizing s with
  | done r => exact h
  | call a next ih => exact ih _ (h _) _

end Program

/-! ## Monitors -/

/-- The state after one more call, or none when the call breaks the rule. -/
abbrev Monitor (Answer : κ → Type) (μ : Type) : Type := μ → Event Answer → Option μ

namespace Monitor

variable (M : Monitor Answer μ)

def watch (m : μ) (trace : List (Event Answer)) : Option μ := trace.foldlM M m

@[simp] theorem watch_nil (m : μ) : M.watch m [] = some m := rfl

theorem watch_cons (m : μ) (e : Event Answer) (trace : List (Event Answer)) :
    M.watch m (e :: trace) = (M m e).bind fun m' => M.watch m' trace := rfl

/-- A monitor goes on where it has got to. -/
theorem watch_append (m : μ) (before after : List (Event Answer)) :
    M.watch m (before ++ after) = (M.watch m before).bind fun m' => M.watch m' after :=
  List.foldlM_append

/-- The calls up to the first that breaks the rule, and with it. -/
def upTo (m : μ) : List (Event Answer) → List (Event Answer)
  | [] => []
  | e :: trace =>
    e :: match M m e with
      | none => []
      | some m' => upTo m' trace

/-- Run from `s`, the program takes the monitor from `m` to `m'`. -/
def Leads (exec : (a : κ) → σ → Answer a × σ) (program : Program Answer ρ) (s : σ) (m m' : μ) :
    Prop :=
  M.watch m (program.trace exec s) = some m'

/-- Run from `s`, the program breaks the rule. -/
def Breaks (exec : (a : κ) → σ → Answer a × σ) (program : Program Answer ρ) (s : σ) (m : μ) :
    Prop :=
  M.watch m (program.trace exec s) = none

variable {M} {exec : (a : κ) → σ → Answer a × σ} {s : σ} {m m' m'' : μ}

theorem leads_done (r : ρ) : M.Leads exec (.done r : Program Answer ρ) s m m := rfl

/-- The first call of a program, as the monitor sees it. -/
theorem leads_call_iff {a : κ} {next : Answer a → Program Answer ρ}
    (ha : M m ⟨a, (exec a s).1⟩ = some m') :
    M.Leads exec (.call a next) s m m'' ↔
      M.Leads exec (next (exec a s).1) (exec a s).2 m' m'' := by
  unfold Leads
  rw [Program.trace_call, watch_cons, ha, Option.bind_some]

theorem Leads.call {a : κ} {next : Answer a → Program Answer ρ}
    (ha : M m ⟨a, (exec a s).1⟩ = some m')
    (hnext : M.Leads exec (next (exec a s).1) (exec a s).2 m' m'') :
    M.Leads exec (.call a next) s m m'' :=
  (leads_call_iff ha).2 hnext

/-- A part that leads the monitor on, and then another. -/
theorem Leads.bind {ρ' : Type} {program : Program Answer ρ} {k : ρ → Program Answer ρ'}
    (h : M.Leads exec program s m m')
    (hk : M.Leads exec (k (program.run exec s).1) (program.run exec s).2 m' m'') :
    M.Leads exec (program.bind k) s m m'' := by
  unfold Leads
  rw [Program.trace_bind, watch_append, h]
  exact hk

/-- A program that breaks the rule at once. -/
theorem breaks_call {a : κ} {next : Answer a → Program Answer ρ}
    (ha : M m ⟨a, (exec a s).1⟩ = none) : M.Breaks exec (.call a next) s m := by
  unfold Breaks
  rw [Program.trace_call, watch_cons, ha]
  rfl

theorem Breaks.call {a : κ} {next : Answer a → Program Answer ρ}
    (ha : M m ⟨a, (exec a s).1⟩ = some m')
    (hnext : M.Breaks exec (next (exec a s).1) (exec a s).2 m') :
    M.Breaks exec (.call a next) s m := by
  unfold Breaks
  rw [Program.trace_call, watch_cons, ha]
  exact hnext

/-- A broken rule stays broken. -/
theorem Breaks.bind {ρ' : Type} {program : Program Answer ρ} {k : ρ → Program Answer ρ'}
    (h : M.Breaks exec program s m) : M.Breaks exec (program.bind k) s m := by
  unfold Breaks
  rw [Program.trace_bind, watch_append, h]
  rfl

/-- A rule that is broken later. -/
theorem Leads.bind_breaks {ρ' : Type} {program : Program Answer ρ} {k : ρ → Program Answer ρ'}
    (h : M.Leads exec program s m m')
    (hk : M.Breaks exec (k (program.run exec s).1) (program.run exec s).2 m') :
    M.Breaks exec (program.bind k) s m := by
  unfold Breaks
  rw [Program.trace_bind, watch_append, h]
  exact hk

theorem Breaks.not_leads {program : Program Answer ρ} (h : M.Breaks exec program s m) :
    ¬ M.Leads exec program s m m' := by
  intro h'
  unfold Breaks at h
  unfold Leads at h'
  rw [h] at h'
  cases h'

theorem Leads.unique {program : Program Answer ρ} (h : M.Leads exec program s m m')
    (h' : M.Leads exec program s m m'') : m' = m'' :=
  Option.some.inj (h.symm.trans h')

/-- A rule that asks for less. -/
theorem Leads.of_le {M' : Monitor Answer μ} (hM : ∀ m e m', M m e = some m' → M' m e = some m')
    {program : Program Answer ρ} (h : M.Leads exec program s m m') :
    M'.Leads exec program s m m' := by
  induction program generalizing s m with
  | done r => exact h
  | call a next ih =>
    unfold Leads at h
    rw [Program.trace_call, watch_cons] at h
    obtain ⟨m₁, hm₁, h⟩ := Option.bind_eq_some_iff.1 h
    exact .call (hM _ _ _ hm₁) (ih _ h)

/-- What is not broken is passed whole. -/
theorem upTo_append {before after : List (Event Answer)} (h : M.watch m before = some m') :
    M.upTo m (before ++ after) = before ++ M.upTo m' after := by
  induction before generalizing m with
  | nil =>
    cases h
    rfl
  | cons e before ih =>
    rw [watch_cons] at h
    obtain ⟨m₁, hm₁, h⟩ := Option.bind_eq_some_iff.1 h
    rw [List.cons_append, upTo, hm₁]
    exact congrArg (e :: ·) (ih h)

/-- A program that only makes calls the monitor does not mind. -/
theorem leads_of_always {program : Program Answer ρ} {Q : κ → Prop}
    (hQ : ∀ a, Q a → ∀ x, M m ⟨a, x⟩ = some m) (h : program.Always fun a _ => Q a) :
    M.Leads exec program s m m := by
  induction program generalizing s with
  | done r => rfl
  | call a next ih => exact .call (hQ a h.1 _) (ih _ (h.2 _))

end Monitor

end DistributedSystems.Support
