import DistributedSystems.Support.Atomicity

/-!
# Requests with parts of their own

Every request belongs to a key, and every key has a view of the shared state. A call is local to a
key when it goes by the view of the key and leaves the views of the others. While no two requests of
one key are served at once, any interleaving of programs whose calls are local to their keys is
serial in the order in which the requests end (`serial_of_local`): a request that has ended did what
its program does when it is run alone after those that ended before it, and a key that is not being
served has the view that these leave.

Which conditions a call is made under is chosen anew for every call, also in a program run alone.
-/

namespace DistributedSystems.Support

variable {σ τ ε κ ρ ι ν : Type} {Answer : κ → Type}

/-- What is left of a program after some of its calls, made with no other program in between, each
under one of the conditions. -/
inductive Program.Reaches (exec : ε → (a : κ) → σ → Answer a × σ) (C : ε → Prop)
    (program : Program Answer ρ) (s : σ) : Program Answer ρ → σ → Prop
  | start : Reaches exec C program s program s
  | call {a : κ} {next : Answer a → Program Answer ρ} {s₁ : σ} {e : ε}
      (h : Reaches exec C program s (.call a next) s₁) (he : C e) :
      Reaches exec C program s (next (exec e a s₁).1) (exec e a s₁).2

/-- The calls of the program, with any answers they can have, meet the condition. -/
def Program.Confined (exec : ε → (a : κ) → σ → Answer a × σ) (C : ε → Prop) (P : κ → Prop) :
    Program Answer ρ → Prop
  | .done _ => True
  | .call a next => P a ∧ ∀ e, C e → ∀ s, (next (exec e a s).1).Confined exec C P

namespace Program.Confined

variable {exec : ε → (a : κ) → σ → Answer a × σ} {C : ε → Prop} {P Q : κ → Prop}
  {program : Program Answer ρ}

theorem mono (h : program.Confined exec C P) (hPQ : ∀ a, P a → Q a) :
    program.Confined exec C Q := by
  induction program with
  | done r => trivial
  | call a next ih => exact ⟨hPQ a h.1, fun e he s => ih _ (h.2 e he s)⟩

/-- A call with confined programs after all answers. -/
theorem call {a : κ} {next : Answer a → Program Answer ρ} (ha : P a)
    (h : ∀ x, (next x).Confined exec C P) : (Program.call a next).Confined exec C P :=
  ⟨ha, fun _ _ _ => h _⟩

theorem bind {ρ' : Type} {k : ρ → Program Answer ρ'} (h : program.Confined exec C P)
    (hk : ∀ r, (k r).Confined exec C P) : (program.bind k).Confined exec C P := by
  induction program with
  | done r => exact hk r
  | call a next ih => exact ⟨h.1, fun e he s => ih _ (h.2 e he s)⟩

theorem reaches {rest : Program Answer ρ} {s s₁ : σ} (hc : program.Confined exec C P)
    (h : program.Reaches exec C s rest s₁) : rest.Confined exec C P := by
  induction h with
  | start => exact hc
  | call h he ih => exact ih.2 _ he _

end Program.Confined

namespace System

/-- The keys of the requests, the views, and the conditions. -/
structure Views (σ τ ε ι ν : Type) where
  key : τ → ι
  view : ι → σ → ν
  conditions : ε → Prop

variable (S : System σ τ ε Answer ρ) (V : Views σ τ ε ι ν)

/-- The call goes by the view of the key, and leaves the other ones. -/
structure Local (k : ι) (a : κ) : Prop where
  own : ∀ e, V.conditions e → ∀ s s', V.view k s = V.view k s' →
    ∃ e', V.conditions e' ∧ (S.exec e' a s').1 = (S.exec e a s).1 ∧
      V.view k (S.exec e' a s').2 = V.view k (S.exec e a s).2
  frame : ∀ e, V.conditions e → ∀ s j, j ≠ k → V.view j (S.exec e a s).2 = V.view j s

/-- The calls of the program are local to the key. -/
def Confined (k : ι) (program : Program Answer ρ) : Prop :=
  program.Confined S.exec V.conditions (S.Local V k)

/-- The requests are served one after the other with these results. -/
inductive SerialIn (s₀ : σ) : List (τ × ρ) → σ → Prop
  | nil : SerialIn s₀ [] s₀
  | snoc {history : List (τ × ρ)} {s s' : σ} {r : τ} {result : ρ} :
      SerialIn s₀ history s → (S.start r).Reaches S.exec V.conditions s (.done result) s' →
        SerialIn s₀ (history ++ [(r, result)]) s'

/-- A thread that has calls to make. -/
def Serving (p : Pool σ τ Answer ρ) (k : ι) : Prop :=
  ∃ t ∈ p.threads, t.rest.action? ≠ none ∧ V.key t.request = k

/-- A program whose calls are local is started for a key that is not being served, or a thread runs
under one of the conditions. -/
def Admits (p : Pool σ τ Answer ρ) : Move τ ε → Prop
  | .spawn r => S.Confined V (V.key r) (S.start r) ∧ ¬ Serving V p (V.key r)
  | .run _ e => V.conditions e

variable {S V}

/-! ## Programs run alone -/

section Alone

variable {k : ι} {program rest : Program Answer ρ} {s s₁ s' : σ}

/-- The other views stay. -/
theorem Confined.frame (hc : S.Confined V k program)
    (h : program.Reaches S.exec V.conditions s rest s₁) {j : ι} (hj : j ≠ k) :
    V.view j s₁ = V.view j s := by
  induction h with
  | start => rfl
  | call h he ih =>
    have hlocal := (Program.Confined.reaches hc h).1
    exact (hlocal.frame _ he _ j hj).trans ih

/-- From a state with the same view the program can do the same. -/
theorem Confined.rebase (hc : S.Confined V k program)
    (h : program.Reaches S.exec V.conditions s rest s₁) (hview : V.view k s = V.view k s') :
    ∃ s₁', program.Reaches S.exec V.conditions s' rest s₁' ∧ V.view k s₁ = V.view k s₁' := by
  induction h with
  | start => exact ⟨s', .start, hview⟩
  | @call a next s₁ e h he ih =>
    obtain ⟨s₁', hreach, hsame⟩ := ih
    obtain ⟨e', he', hanswer, hview'⟩ := (Program.Confined.reaches hc h).1.own e he s₁ s₁' hsame
    refine ⟨(S.exec e' a s₁').2, ?_, hview'.symm⟩
    rw [← hanswer]
    exact hreach.call he'

end Alone

/-! ## Interleaved programs -/

/-- A thread is where its program, run alone from a state, can be with the view of its key. -/
def At (S : System σ τ ε Answer ρ) (V : Views σ τ ε ι ν) (s shared : σ)
    (t : Thread τ Answer ρ) : Prop :=
  ∃ s₁, (S.start t.request).Reaches S.exec V.conditions s t.rest s₁ ∧
    V.view (V.key t.request) s₁ = V.view (V.key t.request) shared

/-- The invariant. -/
structure Interleaved (S : System σ τ ε Answer ρ) (V : Views σ τ ε ι ν) (s₀ : σ)
    (history : List (τ × ρ)) (p : Pool σ τ Answer ρ) (s : σ) : Prop where
  serial : S.SerialIn V s₀ history s
  confined : ∀ t ∈ p.threads, S.Confined V (V.key t.request) (S.start t.request)
  position : ∀ t ∈ p.threads, t.rest.action? ≠ none → At S V s p.shared t
  alone : p.threads.Pairwise fun t t' =>
    t.rest.action? ≠ none → t'.rest.action? ≠ none → V.key t.request ≠ V.key t'.request
  settled : ∀ k, ¬ Serving V p k → V.view k s = V.view k p.shared

namespace Interleaved

variable {s₀ s : σ} {history : List (τ × ρ)} {p : Pool σ τ Answer ρ}

theorem spawn (h : Interleaved S V s₀ history p s) {r : τ} (hnew : Admits S V p (.spawn r)) :
    Interleaved S V s₀ history { p with threads := p.threads ++ [⟨r, S.start r⟩] } s where
  serial := h.serial
  confined t ht := by
    rcases List.mem_append.1 ht with ht | ht
    · exact h.confined t ht
    · obtain rfl := List.mem_singleton.1 ht
      exact hnew.1
  position t ht hrun := by
    rcases List.mem_append.1 ht with ht | ht
    · exact h.position t ht hrun
    · obtain rfl := List.mem_singleton.1 ht
      exact ⟨s, .start, h.settled _ hnew.2⟩
  alone := by
    rw [List.pairwise_append]
    refine ⟨h.alone, List.pairwise_singleton _ _, fun t ht t' ht' hrun _ hkey => ?_⟩
    obtain rfl := List.mem_singleton.1 ht'
    exact hnew.2 ⟨t, ht, hrun, hkey⟩
  settled k hk := h.settled k fun hserving => hk <| by
    obtain ⟨t, ht, hrun, hkey⟩ := hserving
    exact ⟨t, List.mem_append_left _ ht, hrun, hkey⟩

section Call

variable {before after : List (Thread τ Answer ρ)} {r : τ} {a : κ}
  {next : Answer a → Program Answer ρ} {e : ε}

/-- The other threads belong to other keys. -/
theorem key_ne (h : Interleaved S V s₀ history p s)
    (ht : p.threads = before ++ ⟨r, .call a next⟩ :: after) {t : Thread τ Answer ρ}
    (hmem : t ∈ before ∨ t ∈ after) (hrun : t.rest.action? ≠ none) : V.key t.request ≠ V.key r := by
  have halone := h.alone
  rw [ht, List.pairwise_append, List.pairwise_cons] at halone
  obtain ⟨-, ⟨hafter, -⟩, hbefore⟩ := halone
  rcases hmem with hmem | hmem
  · exact hbefore t hmem _ List.mem_cons_self hrun (Option.some_ne_none _)
  · exact (hafter t hmem (Option.some_ne_none _) hrun).symm

/-- What one thread does alone from a state with the view of its key. -/
theorem call_alone (h : Interleaved S V s₀ history p s)
    (ht : p.threads = before ++ ⟨r, .call a next⟩ :: after) (he : V.conditions e) :
    S.Local V (V.key r) a ∧
      ∃ s₁, (S.start r).Reaches S.exec V.conditions s (next (S.exec e a p.shared).1) s₁ ∧
        V.view (V.key r) s₁ = V.view (V.key r) (S.exec e a p.shared).2 := by
  have hmem : (⟨r, .call a next⟩ : Thread τ Answer ρ) ∈ p.threads := by
    rw [ht]
    exact List.mem_append_right _ List.mem_cons_self
  obtain ⟨s₁, hreach, hview⟩ := h.position _ hmem (Option.some_ne_none _)
  have hlocal : S.Local V (V.key r) a := (Program.Confined.reaches (h.confined _ hmem) hreach).1
  obtain ⟨e', he', hanswer, hview'⟩ := hlocal.own e he p.shared s₁ hview.symm
  refine ⟨hlocal, (S.exec e' a s₁).2, ?_, hview'⟩
  rw [← hanswer]
  exact hreach.call he'

/-- A call: the threads of other keys are where they were, from any state that gives them the view
they had. -/
theorem call (h : Interleaved S V s₀ history p s)
    (ht : p.threads = before ++ ⟨r, .call a next⟩ :: after) (he : V.conditions e)
    {history' : List (τ × ρ)} {s' : σ} (hserial : S.SerialIn V s₀ history' s')
    (hothers : ∀ j, j ≠ V.key r → V.view j s' = V.view j s)
    (hself : (next (S.exec e a p.shared).1).action? ≠ none →
      At S V s' (S.exec e a p.shared).2 ⟨r, next (S.exec e a p.shared).1⟩)
    (hended : (next (S.exec e a p.shared).1).action? = none →
      V.view (V.key r) s' = V.view (V.key r) (S.exec e a p.shared).2) :
    Interleaved S V s₀ history'
      ⟨(S.exec e a p.shared).2, before ++ ⟨r, next (S.exec e a p.shared).1⟩ :: after⟩ s' := by
  obtain ⟨hlocal, -⟩ := h.call_alone ht he
  have hold : ∀ t, t ∈ before ∨ t ∈ after → t ∈ p.threads := by
    intro t hmem
    rw [ht, List.mem_append, List.mem_cons]
    exact hmem.imp_right Or.inr
  have hsplit : ∀ t ∈ before ++ (⟨r, next (S.exec e a p.shared).1⟩ : Thread τ Answer ρ) :: after,
      (t ∈ before ∨ t ∈ after) ∨ t = ⟨r, next (S.exec e a p.shared).1⟩ := by
    intro t hmem
    rcases List.mem_append.1 hmem with hmem | hmem
    · exact .inl (.inl hmem)
    · exact (List.mem_cons.1 hmem).elim .inr fun hmem => .inl (.inr hmem)
  refine ⟨hserial, fun t hmem => ?_, fun t hmem hrun => ?_, ?_, fun k hk => ?_⟩
  · rcases hsplit t hmem with hmem | rfl
    · exact h.confined t (hold t hmem)
    · exact h.confined ⟨r, .call a next⟩ (by rw [ht]; simp)
  · rcases hsplit t hmem with hmem | rfl
    · have hne := h.key_ne ht hmem hrun
      obtain ⟨s₁, hreach, hview⟩ := h.position t (hold t hmem) hrun
      obtain ⟨s₁', hreach', hview'⟩ :=
        (h.confined t (hold t hmem)).rebase hreach (hothers _ hne).symm
      refine ⟨s₁', hreach', ?_⟩
      rw [← hview', hview, hlocal.frame e he p.shared _ hne]
    · exact hself hrun
  · have halone := h.alone
    rw [ht, List.pairwise_append, List.pairwise_cons] at halone
    obtain ⟨hbefore, ⟨hnext, hafter⟩, hcross⟩ := halone
    rw [List.pairwise_append, List.pairwise_cons]
    refine ⟨hbefore, ⟨fun t hmem _ hrun => ?_, hafter⟩, fun t hmem t' hmem' hrun hrun' => ?_⟩
    · exact hnext t hmem (Option.some_ne_none _) hrun
    · rcases List.mem_cons.1 hmem' with rfl | hmem'
      · exact hcross t hmem ⟨r, .call a next⟩ List.mem_cons_self hrun (Option.some_ne_none _)
      · exact hcross t hmem t' (List.mem_cons_of_mem _ hmem') hrun hrun'
  · by_cases hkey : k = V.key r
    · subst hkey
      by_cases hrun : (next (S.exec e a p.shared).1).action? = none
      · exact hended hrun
      · exact absurd ⟨_, List.mem_append_right _ List.mem_cons_self, hrun, rfl⟩ hk
    · have hidle : ¬ Serving V p k := by
        rintro ⟨t, hmem, hrun, rfl⟩
        rw [ht] at hmem
        rcases List.mem_append.1 hmem with hmem | hmem
        · exact hk ⟨t, List.mem_append_left _ hmem, hrun, rfl⟩
        · rcases List.mem_cons.1 hmem with rfl | hmem
          · exact hkey rfl
          · exact hk ⟨t, List.mem_append_right _ (List.mem_cons_of_mem _ hmem), hrun, rfl⟩
      exact (hothers k hkey).trans ((h.settled k hidle).trans
        (hlocal.frame e he p.shared k hkey).symm)

end Call

theorem step (h : Interleaved S V s₀ history p s) {m : Move τ ε} (hm : Admits S V p m) :
    ∃ s', Interleaved S V s₀ (history ++ (S.returned p m).toList) (S.move p m) s' := by
  have hmoved := S.moved p m
  generalize S.move p m = p' at hmoved
  cases hmoved with
  | spawned r => exact ⟨s, by rw [returned, Option.toList_none, List.append_nil]; exact h.spawn hm⟩
  | idle i e hc hr =>
    rw [hr, Option.toList_none, List.append_nil]
    exact ⟨s, h⟩
  | @called e before after r a next ht hc hr =>
    have he : V.conditions e := hm
    obtain ⟨hlocal, s₁, hreach, hview⟩ := h.call_alone ht he
    rw [hr]
    have hconfined : S.Confined V (V.key r) (S.start r) :=
      h.confined ⟨r, .call a next⟩ (by rw [ht]; simp)
    cases hnext : next (S.exec e a p.shared).1 with
    | call a' next' =>
      refine ⟨s, ?_⟩
      rw [Program.result?, Option.map_none, Option.toList_none, List.append_nil, ← hnext]
      refine h.call ht he h.serial (fun _ _ => rfl) (fun _ => ⟨s₁, hreach, hview⟩) fun hnone => ?_
      rw [hnext] at hnone
      cases hnone
    | done result =>
      rw [hnext] at hreach
      refine ⟨s₁, ?_⟩
      rw [Program.result?, Option.map_some, Option.toList_some, ← hnext]
      refine h.call ht he (h.serial.snoc hreach) (fun j hj => hconfined.frame hreach hj)
        (fun hrun => ?_) fun _ => hview
      rw [hnext] at hrun
      exact absurd rfl hrun

end Interleaved

/-- **Programs with parts of their own are serial** in the order in which they end. -/
theorem serial_of_local {s₀ : σ} {steps : List (Pool σ τ Answer ρ × Move τ ε)}
    {p : Pool σ τ Answer ρ} {C : Move τ ε → Prop} {G : Pool σ τ Answer ρ → Move τ ε → Prop}
    (hadmits : ∀ p m, C m → G p m → Admits S V p m) (h : Run (S.StepIn C) ⟨s₀, []⟩ steps p)
    (hG : Guarded G steps) :
    ∃ s, S.SerialIn V s₀ (S.ended steps) s ∧
      ∀ k, ¬ Serving V p k → V.view k s = V.view k p.shared := by
  have hinv : ∃ s, Interleaved S V s₀ (S.ended steps) p s := by
    refine h.history_of_guard (I := fun steps p => ∃ s, Interleaved S V s₀ (S.ended steps) p s)
      ?_ (fun steps p m p' hI hm hs => ?_) hG
    · exact ⟨s₀, .nil, fun _ ht => absurd ht List.not_mem_nil,
        fun _ ht => absurd ht List.not_mem_nil, .nil, fun _ _ => rfl⟩
    · obtain ⟨s, hI⟩ := hI
      obtain ⟨hC, rfl⟩ := hs
      rw [ended_snoc]
      exact hI.step (hadmits p m hC hm)
  obtain ⟨s, hinv⟩ := hinv
  exact ⟨s, hinv.serial, hinv.settled⟩

end System

end DistributedSystems.Support
