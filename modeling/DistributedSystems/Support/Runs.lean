import Mathlib.Data.List.Infix

/-!
# Runs

Runs of a labelled transition relation, kept with the steps they take, so that a condition can be
asked of every step of one run and a property may speak of what has happened before.
`Run.exists_of_replay` makes a run of the labels it takes.
`Run.history_of_guard` is the induction for a property of a run that guarded steps keep,
`Run.invariant_of_guard` its case for a property of the reached state alone, and
`Run.forall_prefix_iff` says when a run keeps a property exactly as long as its steps are guarded.
-/

namespace DistributedSystems.Support

variable {σ α : Type} {step : σ → α → σ → Prop} {s₀ s : σ} {steps : List (σ × α)}

/-- A run from `s₀`: its steps, each with the state it is taken in, and the state it reaches. -/
inductive Run (step : σ → α → σ → Prop) (s₀ : σ) : List (σ × α) → σ → Prop
  | nil : Run step s₀ [] s₀
  | snoc {steps : List (σ × α)} {s s' : σ} {a : α} :
      Run step s₀ steps s → step s a s' → Run step s₀ (steps ++ [(s, a)]) s'

/-- Every step of the run meets the condition. -/
def Guarded (G : σ → α → Prop) (steps : List (σ × α)) : Prop := ∀ x ∈ steps, G x.1 x.2

instance (G : σ → α → Prop) [∀ s a, Decidable (G s a)] (steps : List (σ × α)) :
    Decidable (Guarded G steps) :=
  inferInstanceAs (Decidable (∀ x ∈ steps, G x.1 x.2))

theorem guarded_nil (G : σ → α → Prop) : Guarded G [] := fun _ h => absurd h (by simp)

theorem guarded_snoc {G : σ → α → Prop} {a : α} :
    Guarded G (steps ++ [(s, a)]) ↔ Guarded G steps ∧ G s a := by
  simp [Guarded, or_imp, forall_and]

/-! ## Conditions on the steps so far -/

/-- Every step meets the condition, which is about the steps before it, too: first the given ones,
then those of the list. -/
def HeedsFrom (G : List (σ × α) → σ → α → Prop) : List (σ × α) → List (σ × α) → Prop
  | _, [] => True
  | earlier, x :: later => G earlier x.1 x.2 ∧ HeedsFrom G (earlier ++ [x]) later

/-- Every step of the run meets the condition, which is about the steps before it, too. -/
def Heeds (G : List (σ × α) → σ → α → Prop) (steps : List (σ × α)) : Prop := HeedsFrom G [] steps

instance (G : List (σ × α) → σ → α → Prop) [∀ earlier s a, Decidable (G earlier s a)] :
    ∀ earlier steps : List (σ × α), Decidable (HeedsFrom G earlier steps)
  | _, [] => inferInstanceAs (Decidable True)
  | earlier, x :: later =>
    have := instDecidableHeedsFrom G (earlier ++ [x]) later
    inferInstanceAs (Decidable (_ ∧ _))

instance (G : List (σ × α) → σ → α → Prop) [∀ earlier s a, Decidable (G earlier s a)]
    (steps : List (σ × α)) : Decidable (Heeds G steps) :=
  inferInstanceAs (Decidable (HeedsFrom G [] steps))

section Heeds

variable {G : List (σ × α) → σ → α → Prop}

theorem heeds_nil : Heeds G [] := trivial

theorem heedsFrom_append {earlier steps' : List (σ × α)} :
    HeedsFrom G earlier (steps ++ steps') ↔
      HeedsFrom G earlier steps ∧ HeedsFrom G (earlier ++ steps) steps' := by
  induction steps generalizing earlier with
  | nil => simp [HeedsFrom]
  | cons x steps ih =>
    rw [List.cons_append, HeedsFrom, HeedsFrom, ih, and_assoc, List.append_assoc,
      List.singleton_append]

theorem heeds_snoc {a : α} : Heeds G (steps ++ [(s, a)]) ↔ Heeds G steps ∧ G steps s a := by
  rw [Heeds, Heeds, heedsFrom_append]
  simp [HeedsFrom]

theorem Heeds.of_isPrefix {steps' : List (σ × α)} (h : Heeds G steps) (hp : steps' <+: steps) :
    Heeds G steps' := by
  obtain ⟨rest, rfl⟩ := hp
  exact (heedsFrom_append.1 h).1

/-- A condition on the single step. -/
theorem heeds_iff_guarded {G : σ → α → Prop} : Heeds (fun _ => G) steps ↔ Guarded G steps := by
  have hfrom : ∀ earlier, HeedsFrom (fun _ => G) earlier steps ↔ Guarded G steps := by
    induction steps with
    | nil => exact fun _ => iff_of_true trivial (guarded_nil G)
    | cons x steps ih =>
      intro earlier
      rw [HeedsFrom, ih, Guarded, Guarded, List.forall_mem_cons]
  exact hfrom []

end Heeds

namespace Run

theorem eq_of_nil (h : Run step s₀ [] s) : s = s₀ := by
  generalize hsteps : [] = steps at h
  cases h with
  | nil => rfl
  | snoc _ _ =>
    exact absurd hsteps (List.append_ne_nil_of_right_ne_nil _ (List.cons_ne_nil _ _)).symm

theorem of_snoc {s₁ : σ} {a : α} (h : Run step s₀ (steps ++ [(s₁, a)]) s) :
    Run step s₀ steps s₁ ∧ step s₁ a s := by
  generalize hsteps : steps ++ [(s₁, a)] = steps' at h
  cases h with
  | nil => exact absurd hsteps (List.append_ne_nil_of_right_ne_nil _ (List.cons_ne_nil _ _))
  | snoc hr hs =>
    obtain ⟨rfl, hlast⟩ := List.append_inj' hsteps rfl
    obtain ⟨rfl, rfl⟩ := Prod.mk.inj (List.singleton_inj.1 hlast)
    exact ⟨hr, hs⟩

/-- Take the steps that the labels say, where each of them can be taken. -/
def replay (next : σ → α → Option σ) : σ → List α → Option (List (σ × α) × σ)
  | s, [] => some ([], s)
  | s, a :: labels => do
    let s' ← next s a
    let (steps, s'') ← replay next s' labels
    return ((s, a) :: steps, s'')

/-- A run with one more step in front. -/
theorem cons {s₁ : σ} {a : α} (hs : step s₀ a s₁) (h : Run step s₁ steps s) :
    Run step s₀ ((s₀, a) :: steps) s := by
  induction h with
  | nil => exact Run.nil.snoc hs
  | snoc _ hs' ih => exact ih.snoc hs'

theorem of_replay {next : σ → α → Option σ} {labels : List α}
    (h : replay next s₀ labels = some (steps, s)) :
    Run (fun s a s' => next s a = some s') s₀ steps s := by
  induction labels generalizing s₀ steps with
  | nil =>
    obtain ⟨rfl, rfl⟩ := Prod.mk.inj (Option.some.inj h)
    exact .nil
  | cons a labels ih =>
    obtain ⟨s₁, hs, h⟩ := Option.bind_eq_some_iff.1 h
    obtain ⟨⟨rest, s₂⟩, hrest, h⟩ := Option.bind_eq_some_iff.1 h
    obtain ⟨rfl, rfl⟩ := Prod.mk.inj (Option.some.inj h)
    exact (ih hrest).cons hs

theorem exists_of_replay {next : σ → α → Option σ} {P : List (σ × α) → σ → Prop}
    [∀ steps s, Decidable (P steps s)] (labels : List α)
    (h : (replay next s₀ labels).any fun r => decide (P r.1 r.2)) :
    ∃ steps s, Run (fun s a s' => next s a = some s') s₀ steps s ∧ P steps s := by
  cases hr : replay next s₀ labels with
  | none =>
    rw [hr] at h
    cases h
  | some r =>
    rw [hr] at h
    exact ⟨r.1, r.2, of_replay hr, of_decide_eq_true h⟩

/-- The same run under other labels. -/
theorem map_label {β : Type} {step' : σ → β → σ → Prop} {f : α → β} (h : Run step s₀ steps s)
    (hsub : ∀ s a s', step s a s' → step' s (f a) s') :
    Run step' s₀ (steps.map fun x => (x.1, f x.2)) s := by
  induction h with
  | nil => exact .nil
  | snoc _ hs ih =>
    rw [List.map_append]
    exact ih.snoc (hsub _ _ _ hs)

theorem mono {step' : σ → α → σ → Prop} (h : Run step s₀ steps s)
    (hsub : ∀ s a s', step s a s' → step' s a s') : Run step' s₀ steps s := by
  induction h with
  | nil => exact .nil
  | snoc _ hs ih => exact ih.snoc (hsub _ _ _ hs)

/-- **A run seen through a map.** Where guarded steps keep an invariant and go over to steps of
another relation, so does the whole run. -/
theorem image {τ : Type} {step' : τ → α → τ → Prop} {f : σ → τ} {I : σ → Prop}
    {G : σ → α → Prop} (h : Run step s₀ steps s) (h0 : I s₀)
    (hstep : ∀ s a s', I s → G s a → step s a s' → I s' ∧ step' (f s) a (f s'))
    (hG : Guarded G steps) :
    I s ∧ Run step' (f s₀) (steps.map fun x => (f x.1, x.2)) (f s) := by
  induction h with
  | nil => exact ⟨h0, .nil⟩
  | snoc _ hs ih =>
    obtain ⟨hG, hlast⟩ := guarded_snoc.1 hG
    obtain ⟨hI, hrun⟩ := ih hG
    obtain ⟨hI', hnew⟩ := hstep _ _ _ hI hlast hs
    rw [List.map_append]
    exact ⟨hI', hrun.snoc hnew⟩

section Heeds

variable {G : List (σ × α) → σ → α → Prop} {I P : List (σ × α) → σ → Prop}

/-- What steps keep that meet a condition holds of a run all of whose steps meet it. -/
theorem history_of_heeds (h : Run step s₀ steps s) (h0 : I [] s₀)
    (hstep : ∀ steps s a s', I steps s → G steps s a → step s a s' → I (steps ++ [(s, a)]) s')
    (hG : Heeds G steps) : I steps s := by
  induction h with
  | nil => exact h0
  | snoc _ hs ih =>
    obtain ⟨hG, hGs⟩ := heeds_snoc.1 hG
    exact hstep _ _ _ _ (ih hG) hGs hs

/-- **Exactly the runs that heed the condition keep `P` all along**, when an invariant `I` that
implies `P` is kept by steps that meet it and a step that does not loses `P` at once. -/
theorem forall_prefix_iff_heeds (h : Run step s₀ steps s) (h0 : I [] s₀)
    (hIP : ∀ steps s, I steps s → P steps s)
    (hstep : ∀ steps s a s', I steps s → G steps s a → step s a s' → I (steps ++ [(s, a)]) s')
    (hlost : ∀ steps s a s', I steps s → step s a s' → P (steps ++ [(s, a)]) s' → G steps s a) :
    (∀ steps' s', steps' <+: steps → Run step s₀ steps' s' → P steps' s') ↔ Heeds G steps := by
  constructor
  · intro hP
    induction h with
    | nil => exact heeds_nil
    | @snoc steps s s' a hr hs ih =>
      have hG := ih fun steps' s' hp => hP steps' s' (hp.trans (List.prefix_append _ _))
      have hI : I steps s := hr.history_of_heeds h0 hstep hG
      exact heeds_snoc.2 ⟨hG, hlost _ _ _ _ hI hs (hP _ s' (List.prefix_refl _) (hr.snoc hs))⟩
  · intro hG steps' s' hp hr
    exact hIP _ _ (hr.history_of_heeds h0 hstep (hG.of_isPrefix hp))

end Heeds

section Guard

variable {G : σ → α → Prop} {I P : List (σ × α) → σ → Prop}

/-- What guarded steps keep holds of a run whose steps are all guarded. -/
theorem history_of_guard (h : Run step s₀ steps s) (h0 : I [] s₀)
    (hstep : ∀ steps s a s', I steps s → G s a → step s a s' → I (steps ++ [(s, a)]) s')
    (hG : Guarded G steps) : I steps s :=
  h.history_of_heeds h0 hstep (heeds_iff_guarded.2 hG)

/-- **Exactly the guarded runs keep `P` all along**, when an invariant `I` that implies `P` is kept
by guarded steps and a step that is not guarded loses `P` at once. -/
theorem forall_prefix_iff (h : Run step s₀ steps s) (h0 : I [] s₀)
    (hIP : ∀ steps s, I steps s → P steps s)
    (hstep : ∀ steps s a s', I steps s → G s a → step s a s' → I (steps ++ [(s, a)]) s')
    (hlost : ∀ steps s a s', I steps s → step s a s' → P (steps ++ [(s, a)]) s' → G s a) :
    (∀ steps' s', steps' <+: steps → Run step s₀ steps' s' → P steps' s') ↔ Guarded G steps :=
  (h.forall_prefix_iff_heeds h0 hIP hstep hlost).trans heeds_iff_guarded

end Guard

/-- What guarded steps keep holds at the end of a run whose steps are all guarded. -/
theorem invariant_of_guard {G : σ → α → Prop} {I : σ → Prop} (h : Run step s₀ steps s)
    (h0 : I s₀) (hstep : ∀ s a s', I s → G s a → step s a s' → I s') (hG : Guarded G steps) :
    I s :=
  h.history_of_guard (I := fun _ => I) h0 (fun _ => hstep) hG

/-- What every step keeps holds at the end of a run. -/
theorem invariant {I : σ → Prop} (h : Run step s₀ steps s) (h0 : I s₀)
    (hstep : ∀ s a s', I s → step s a s' → I s') : I s := by
  induction h with
  | nil => exact h0
  | snoc _ hs ih => exact hstep _ _ _ ih hs

end Run

/-! ## Counts -/

/-- How many steps count since the last one that starts the count anew. -/
def countSince {β : Type} (anew counts : β → Bool) (steps : List β) : Nat :=
  steps.foldl (fun n x => if anew x then 0 else if counts x then n + 1 else n) 0

theorem countSince_snoc {β : Type} (anew counts : β → Bool) (steps : List β) (x : β) :
    countSince anew counts (steps ++ [x]) =
      if anew x then 0
      else if counts x then countSince anew counts steps + 1
      else countSince anew counts steps := by
  simp [countSince]

/-- The steps since the last one that starts anew. -/
def since {β : Type} (anew : β → Bool) (steps : List β) : List β :=
  steps.foldl (fun xs x => if anew x then [] else xs ++ [x]) []

theorem since_snoc {β : Type} (anew : β → Bool) (steps : List β) (x : β) :
    since anew (steps ++ [x]) = if anew x then [] else since anew steps ++ [x] := by
  simp [since]

/-- One of the steps does it, and no later one undoes it. -/
def Stands {β : Type} (does undoes : β → Prop) : List β → Prop
  | [] => False
  | x :: later => (does x ∧ ∀ y ∈ later, ¬ undoes y) ∨ Stands does undoes later

instance {β : Type} (does undoes : β → Prop) [DecidablePred does] [DecidablePred undoes] :
    DecidablePred (Stands does undoes)
  | [] => inferInstanceAs (Decidable False)
  | _ :: later =>
    have := instDecidablePredListStands does undoes later
    inferInstanceAs (Decidable (_ ∨ _))

theorem stands_snoc {β : Type} {does undoes : β → Prop} {steps : List β} {x : β} :
    Stands does undoes (steps ++ [x]) ↔ does x ∨ Stands does undoes steps ∧ ¬ undoes x := by
  induction steps with
  | nil => simp [Stands]
  | cons y steps ih =>
    simp only [List.cons_append, Stands, ih, List.forall_mem_append, List.forall_mem_singleton]
    tauto

theorem filterMap_snoc {β γ : Type} (f : β → Option γ) (steps : List β) (x : β) :
    (steps ++ [x]).filterMap f = steps.filterMap f ++ (f x).toList := by
  cases h : f x <;> simp [h]

/-! ## Reachable states -/

/-- The states that some run from a starting state reaches. -/
def Reachable (init : σ → Prop) (step : σ → α → σ → Prop) (s : σ) : Prop :=
  ∃ s₀ steps, init s₀ ∧ Run step s₀ steps s

namespace Reachable

variable {init : σ → Prop}

theorem of_init (h : init s) : Reachable init step s := ⟨s, [], h, .nil⟩

theorem snoc {s' : σ} (a : α) (h : Reachable init step s) (hs : step s a s') :
    Reachable init step s' := by
  obtain ⟨s₀, steps, h0, hr⟩ := h
  exact ⟨s₀, _, h0, hr.snoc (a := a) hs⟩

end Reachable

end DistributedSystems.Support
