import DistributedSystems.Support.Runs
import Mathlib.Data.List.Basic

/-!
# Handing items to threads through one cell

A receiver stores each item that it gets in the same cell, creates a thread for it and waits until
that thread has a copy: a flag, a mutex and a condition variable. It stores to the cell without the
mutex. A thread copies, clears the flag and signals under the mutex, and then runs its task on the
copy. The receiver may be woken without a signal, and an attempt to receive may fail and leave the
cell as it was; a thread is created all the same.

Only the thread that was created last can be in the handover: all others have left the mutex for
good when the receiver stores again (`Phase.moved`).
-/

namespace DistributedSystems.Support.Handover

variable {β : Type}

/-! ## The parties -/

/-- What the receiver does next. -/
inductive MainStage
  | receiving
  | creating
  | locking
  /-- At the loop condition, with the mutex. -/
  | testing
  /-- Inside the wait for the condition variable. -/
  | waiting
  /-- Woken, about to take the mutex again. -/
  | woken
  | setting
  | unlocking
deriving DecidableEq, Repr

/-- What a thread does next. -/
inductive WorkerStage
  | locking
  | copying
  | clearing
  | signalling
  | unlocking
  | running
  | finished
deriving DecidableEq, Repr

structure Worker (β : Type) where
  stage : WorkerStage
  copy : Option β
deriving DecidableEq, Repr

/-- Who may hold the mutex. -/
inductive Party
  | main
  | worker (i : Nat)
deriving DecidableEq, Repr

/-- The threads are in the order of their creation. `pending` is the flag. -/
structure State (β : Type) where
  cell : β
  pending : Bool
  holder : Option Party
  main : MainStage
  workers : List (Worker β)
deriving DecidableEq, Repr

inductive Event (β : Type)
  /-- The receiver gets an item, or nothing. -/
  | receive (outcome : Option β)
  /-- The receiver takes another step. -/
  | main
  /-- The wait ends without a signal. -/
  | wake
  | worker (i : Nat)
deriving DecidableEq, Repr

namespace State

variable (s : State β)

def mainNext : Option (State β) :=
  match s.main with
  | .receiving => none
  | .creating => some { s with workers := s.workers ++ [⟨.locking, none⟩], main := .locking }
  | .locking =>
    if s.holder = none then some { s with holder := some .main, main := .testing } else none
  | .testing =>
    if s.pending then some { s with holder := none, main := .waiting }
    else some { s with main := .setting }
  | .waiting => none
  | .woken =>
    if s.holder = none then some { s with holder := some .main, main := .testing } else none
  | .setting => some { s with pending := true, main := .unlocking }
  | .unlocking => some { s with holder := none, main := .receiving }

def setWorker (i : Nat) (w : Worker β) : State β := { s with workers := s.workers.set i w }

def workerNext (i : Nat) (w : Worker β) : Option (State β) :=
  match w.stage with
  | .locking =>
    if s.holder = none then
      some { s.setWorker i { w with stage := .copying } with holder := some (.worker i) }
    else none
  | .copying => some (s.setWorker i ⟨.clearing, some s.cell⟩)
  | .clearing => some { s.setWorker i { w with stage := .signalling } with pending := false }
  | .signalling =>
    -- a signal that nobody waits for is lost
    some { s.setWorker i { w with stage := .unlocking } with
      main := if s.main = .waiting then .woken else s.main }
  | .unlocking => some { s.setWorker i { w with stage := .running } with holder := none }
  | .running => some (s.setWorker i { w with stage := .finished })
  | .finished => none

def next : Event β → Option (State β)
  | .receive outcome =>
    if s.main = .receiving then
      some { s with cell := outcome.getD s.cell, main := .creating }
    else none
  | .main => s.mainNext
  | .wake => if s.main = .waiting then some { s with main := .woken } else none
  | .worker i => s.workers[i]?.bind (s.workerNext i)

end State

def Step (s : State β) (e : Event β) (s' : State β) : Prop := s.next e = some s'

/-- Before the first item, with whatever the cell holds then. -/
def initial (cell : β) : State β := ⟨cell, true, none, .receiving, []⟩

/-! ## One step -/

/-- The outcomes of a step. -/
inductive Moved (s : State β) : Event β → State β → Prop
  | received (outcome : Option β) (hm : s.main = .receiving) :
    Moved s (.receive outcome) { s with cell := outcome.getD s.cell, main := .creating }
  | created (hm : s.main = .creating) :
    Moved s .main { s with workers := s.workers ++ [⟨.locking, none⟩], main := .locking }
  | locked (hm : s.main = .locking ∨ s.main = .woken) (hh : s.holder = none) :
    Moved s .main { s with holder := some .main, main := .testing }
  | waits (hm : s.main = .testing) (hp : s.pending = true) :
    Moved s .main { s with holder := none, main := .waiting }
  | passes (hm : s.main = .testing) (hp : s.pending = false) :
    Moved s .main { s with main := .setting }
  | set (hm : s.main = .setting) : Moved s .main { s with pending := true, main := .unlocking }
  | unlocked (hm : s.main = .unlocking) :
    Moved s .main { s with holder := none, main := .receiving }
  | woken (hm : s.main = .waiting) : Moved s .wake { s with main := .woken }
  | locks {i : Nat} {copy : Option β} (hw : s.workers[i]? = some ⟨.locking, copy⟩)
      (hh : s.holder = none) :
    Moved s (.worker i)
      { s.setWorker i ⟨.copying, copy⟩ with holder := some (.worker i) }
  | copies {i : Nat} {copy : Option β} (hw : s.workers[i]? = some ⟨.copying, copy⟩) :
    Moved s (.worker i) (s.setWorker i ⟨.clearing, some s.cell⟩)
  | clears {i : Nat} {copy : Option β} (hw : s.workers[i]? = some ⟨.clearing, copy⟩) :
    Moved s (.worker i) { s.setWorker i ⟨.signalling, copy⟩ with pending := false }
  | signals {i : Nat} {copy : Option β} (hw : s.workers[i]? = some ⟨.signalling, copy⟩) :
    Moved s (.worker i)
      { s.setWorker i ⟨.unlocking, copy⟩ with
        main := if s.main = .waiting then .woken else s.main }
  | unlocks {i : Nat} {copy : Option β} (hw : s.workers[i]? = some ⟨.unlocking, copy⟩) :
    Moved s (.worker i) { s.setWorker i ⟨.running, copy⟩ with holder := none }
  | runs {i : Nat} {copy : Option β} (hw : s.workers[i]? = some ⟨.running, copy⟩) :
    Moved s (.worker i) (s.setWorker i ⟨.finished, copy⟩)

variable {s s' : State β} {e : Event β}

theorem moved_main (h : s.mainNext = some s') : Moved s .main s' := by
  unfold State.mainNext at h
  cases hm : s.main <;> simp only [hm] at h
  case receiving => cases h
  case creating => exact Option.some.inj h ▸ .created hm
  case locking =>
    split at h
    · exact Option.some.inj h ▸ .locked (Or.inl hm) ‹_›
    · cases h
  case testing =>
    split at h
    · exact Option.some.inj h ▸ .waits hm ‹_›
    · exact Option.some.inj h ▸ .passes hm (by simpa using ‹¬ s.pending = true›)
  case waiting => cases h
  case woken =>
    split at h
    · exact Option.some.inj h ▸ .locked (Or.inr hm) ‹_›
    · cases h
  case setting => exact Option.some.inj h ▸ .set hm
  case unlocking => exact Option.some.inj h ▸ .unlocked hm

theorem moved_worker {i : Nat} {w : Worker β} (hw : s.workers[i]? = some w)
    (h : s.workerNext i w = some s') : Moved s (.worker i) s' := by
  obtain ⟨stage, copy⟩ := w
  unfold State.workerNext at h
  cases stage <;> simp only at h
  case locking =>
    split at h
    · exact Option.some.inj h ▸ .locks hw ‹_›
    · cases h
  case copying => exact Option.some.inj h ▸ .copies hw
  case clearing => exact Option.some.inj h ▸ .clears hw
  case signalling => exact Option.some.inj h ▸ .signals hw
  case unlocking => exact Option.some.inj h ▸ .unlocks hw
  case running => exact Option.some.inj h ▸ .runs hw
  case finished => cases h

theorem Step.moved (h : Step s e s') : Moved s e s' := by
  unfold Step at h
  cases e with
  | receive outcome =>
    unfold State.next at h
    dsimp only at h
    split at h
    · exact Option.some.inj h ▸ .received outcome ‹_›
    · cases h
  | main => exact moved_main h
  | wake =>
    unfold State.next at h
    dsimp only at h
    split at h
    · exact Option.some.inj h ▸ .woken ‹_›
    · cases h
  | worker i =>
    obtain ⟨w, hw, h⟩ := Option.bind_eq_some_iff.1 h
    exact moved_worker hw h

/-! ## Who waits for whom -/

namespace WorkerStage

/-- The thread has the mutex. -/
def holds : WorkerStage → Bool
  | copying | clearing | signalling | unlocking => true
  | _ => false

/-- The thread has not cleared the flag yet. -/
def fresh : WorkerStage → Bool
  | locking | copying | clearing => true
  | _ => false

/-- The thread is done with cell, flag and mutex. -/
def settled : WorkerStage → Bool
  | running | finished => true
  | _ => false

def copied : WorkerStage → Bool
  | locking | copying => false
  | _ => true

end WorkerStage

/-- No thread is in the middle of the handover. -/
structure Idle (s : State β) : Prop where
  settled : ∀ w ∈ s.workers, w.stage.settled = true
  main : (s.main = .receiving ∨ s.main = .creating) ∧ s.pending = true ∧ s.holder = none ∨
    s.main = .setting ∧ s.pending = false ∧ s.holder = some .main ∨
    s.main = .unlocking ∧ s.pending = true ∧ s.holder = some .main

/-- The receiver waits for the last thread. -/
structure Awaiting (s : State β) (old : List (Worker β)) (w : Worker β) : Prop where
  workers : s.workers = old ++ [w]
  settled : ∀ v ∈ old, v.stage.settled = true
  pending : s.pending = w.stage.fresh
  main : s.main = .testing ∧ w.stage.holds = false ∧ s.holder = some .main ∨
    (s.main = .locking ∨ s.main = .woken ∨
        s.main = .waiting ∧ (w.stage.fresh = true ∨ w.stage = .signalling)) ∧
      s.holder = if w.stage.holds then some (.worker old.length) else none

def Phase (s : State β) : Prop := Idle s ∨ ∃ old w, Awaiting s old w

theorem settled_set {ws : List (Worker β)} (h : ∀ w ∈ ws, w.stage.settled = true) {i : Nat}
    {v : Worker β} (hv : v.stage.settled = true) : ∀ w ∈ ws.set i v, w.stage.settled = true := by
  intro w hw
  rcases List.mem_or_eq_of_mem_set hw with hw | rfl
  · exact h w hw
  · exact hv

theorem Idle.moved (h : Idle s) (hm : Moved s e s') : Phase s' := by
  have hmain := h.main
  have hnot : ∀ {i : Nat} {w : Worker β}, s.workers[i]? = some w → w.stage.settled = true :=
    fun hw => h.settled _ (List.mem_of_getElem? hw)
  cases hm with
  | received outcome hm =>
    simp only [hm, reduceCtorEq, false_and, or_false, true_and] at hmain
    exact Or.inl ⟨h.settled, Or.inl ⟨Or.inr rfl, hmain.1, hmain.2⟩⟩
  | created hm =>
    simp only [hm, reduceCtorEq, false_and, or_false, or_true, true_and] at hmain
    exact Or.inr ⟨s.workers, ⟨.locking, none⟩, rfl, h.settled, hmain.1,
      Or.inr ⟨Or.inl rfl, hmain.2⟩⟩
  | locked hm => rcases hm with hm | hm <;> simp [hm] at hmain
  | waits hm => simp [hm] at hmain
  | passes hm => simp [hm] at hmain
  | set hm =>
    simp only [hm, reduceCtorEq, false_and, or_false, false_or, true_and] at hmain
    exact Or.inl ⟨h.settled, Or.inr (Or.inr ⟨rfl, rfl, hmain.2⟩)⟩
  | unlocked hm =>
    simp only [hm, reduceCtorEq, false_and, or_false, false_or, true_and] at hmain
    exact Or.inl ⟨h.settled, Or.inl ⟨Or.inl rfl, hmain.1, rfl⟩⟩
  | woken hm => simp [hm] at hmain
  | locks hw => exact absurd (hnot hw) (by simp [WorkerStage.settled])
  | copies hw => exact absurd (hnot hw) (by simp [WorkerStage.settled])
  | clears hw => exact absurd (hnot hw) (by simp [WorkerStage.settled])
  | signals hw => exact absurd (hnot hw) (by simp [WorkerStage.settled])
  | unlocks hw => exact absurd (hnot hw) (by simp [WorkerStage.settled])
  | runs hw => exact Or.inl ⟨settled_set h.settled rfl, hmain⟩

namespace Awaiting

variable {old : List (Worker β)} {w : Worker β} {i : Nat}

/-- Only the last thread can be in the handover. -/
theorem last (h : Awaiting s old w) {v : Worker β} (hv : s.workers[i]? = some v)
    (hs : v.stage.settled = false) : i = old.length ∧ v = w := by
  rw [h.workers] at hv
  by_cases hi : i < old.length
  · rw [List.getElem?_append_left hi] at hv
    have hsettled := h.settled v (List.mem_of_getElem? hv)
    rw [hs] at hsettled
    cases hsettled
  · rw [List.getElem?_append_right (by omega)] at hv
    obtain ⟨hlt, rfl⟩ := List.getElem?_eq_some_iff.1 hv
    rw [List.length_singleton] at hlt
    exact ⟨by omega, by simp⟩

theorem workers_set (h : Awaiting s old w) (v : Worker β) :
    (s.setWorker old.length v).workers = old ++ [v] := by
  unfold State.setWorker
  simp [h.workers]

/-- The last thread runs its task, or one before it does. -/
theorem ran (h : Awaiting s old w) {copy : Option β}
    (hw : s.workers[i]? = some ⟨.running, copy⟩) :
    ∃ old' w', Awaiting (s.setWorker i ⟨.finished, copy⟩) old' w' := by
  by_cases hi : i < old.length
  · refine ⟨old.set i ⟨.finished, copy⟩, w, ?_, settled_set h.settled rfl, h.pending, ?_⟩
    · unfold State.setWorker
      simp [h.workers, hi]
    · rw [List.length_set]
      exact h.main
  · have hlast : i = old.length ∧ ⟨.running, copy⟩ = w := by
      have hget := hw
      rw [h.workers, List.getElem?_append_right (by omega)] at hget
      obtain ⟨hlt, heq⟩ := List.getElem?_eq_some_iff.1 hget
      rw [List.length_singleton] at hlt
      exact ⟨by omega, by simpa using heq.symm⟩
    obtain ⟨rfl, rfl⟩ := hlast
    refine ⟨old, ⟨.finished, copy⟩, h.workers_set _, h.settled, h.pending, ?_⟩
    rcases h.main with ⟨hm, -, hh⟩ | ⟨hm | hm | ⟨-, hwait⟩, hh⟩
    · exact Or.inl ⟨hm, rfl, hh⟩
    · exact Or.inr ⟨Or.inl hm, hh⟩
    · exact Or.inr ⟨Or.inr (Or.inl hm), hh⟩
    · simp [WorkerStage.fresh] at hwait

theorem moved (h : Awaiting s old w) (hm : Moved s e s') : Phase s' := by
  have hmain := h.main
  cases hm with
  | received outcome hm => simp [hm] at hmain
  | created hm => simp [hm] at hmain
  | locked hm hh =>
    -- nobody has the mutex, the last thread included
    have hholds : w.stage.holds = false := by
      rcases hmain with ⟨-, hw, -⟩ | ⟨-, hholder⟩
      · exact hw
      · rw [hh] at hholder
        by_contra hne
        rw [if_pos (by simpa using hne)] at hholder
        cases hholder
    exact Or.inr ⟨old, w, h.workers, h.settled, h.pending, Or.inl ⟨rfl, hholds, rfl⟩⟩
  | waits hm hp =>
    simp only [hm, reduceCtorEq, false_and, or_false, true_and] at hmain
    have hfresh : w.stage.fresh = true := h.pending ▸ hp
    refine Or.inr ⟨old, w, h.workers, h.settled, h.pending,
      Or.inr ⟨Or.inr (Or.inr ⟨rfl, Or.inl hfresh⟩), ?_⟩⟩
    rw [hmain.1]
    rfl
  | passes hm hp =>
    simp only [hm, reduceCtorEq, false_and, or_false, true_and] at hmain
    have hfresh : w.stage.fresh = false := h.pending ▸ hp
    have hsettled : w.stage.settled = true := by
      obtain ⟨stage, copy⟩ := w
      cases stage <;> simp_all [WorkerStage.fresh, WorkerStage.holds, WorkerStage.settled]
    refine Or.inl ⟨fun v hv => ?_, Or.inr (Or.inl ⟨rfl, hp, hmain.2⟩)⟩
    have hv' : v ∈ old ++ [w] := h.workers ▸ hv
    rcases List.mem_append.1 hv' with hv' | hv'
    · exact h.settled v hv'
    · rw [List.mem_singleton.1 hv']
      exact hsettled
  | set hm => simp [hm] at hmain
  | unlocked hm => simp [hm] at hmain
  | woken hm =>
    simp only [hm, reduceCtorEq, false_or, false_and, true_and] at hmain
    exact Or.inr ⟨old, w, h.workers, h.settled, h.pending, Or.inr ⟨Or.inr (Or.inl rfl), hmain.2⟩⟩
  | locks hw hh =>
    obtain ⟨rfl, rfl⟩ := h.last hw rfl
    refine Or.inr ⟨old, _, h.workers_set _, h.settled, h.pending, ?_⟩
    rcases hmain with ⟨-, -, hholder⟩ | ⟨hm, -⟩
    · rw [hh] at hholder
      cases hholder
    · exact Or.inr ⟨hm.imp_right (Or.imp_right fun hm => ⟨hm.1, Or.inl rfl⟩), rfl⟩
  | copies hw =>
    obtain ⟨rfl, rfl⟩ := h.last hw rfl
    refine Or.inr ⟨old, _, h.workers_set _, h.settled, h.pending, ?_⟩
    rcases hmain with ⟨-, hholds, -⟩ | ⟨hm, hholder⟩
    · cases hholds
    · exact Or.inr ⟨hm.imp_right (Or.imp_right fun hm => ⟨hm.1, Or.inl rfl⟩), hholder⟩
  | clears hw =>
    obtain ⟨rfl, rfl⟩ := h.last hw rfl
    refine Or.inr ⟨old, _, h.workers_set _, h.settled, rfl, ?_⟩
    rcases hmain with ⟨-, hholds, -⟩ | ⟨hm, hholder⟩
    · cases hholds
    · exact Or.inr ⟨hm.imp_right (Or.imp_right fun hm => ⟨hm.1, Or.inr rfl⟩), hholder⟩
  | signals hw =>
    obtain ⟨rfl, rfl⟩ := h.last hw rfl
    refine Or.inr ⟨old, _, h.workers_set _, h.settled, h.pending, ?_⟩
    rcases hmain with ⟨-, hholds, -⟩ | ⟨hm, hholder⟩
    · cases hholds
    · refine Or.inr ⟨?_, hholder⟩
      dsimp only
      rcases hm with hm | hm | ⟨hm, -⟩
      · rw [hm]
        exact Or.inl rfl
      · rw [hm]
        exact Or.inr (Or.inl rfl)
      · rw [hm]
        exact Or.inr (Or.inl rfl)
  | unlocks hw =>
    obtain ⟨rfl, rfl⟩ := h.last hw rfl
    refine Or.inr ⟨old, _, h.workers_set _, h.settled, h.pending, ?_⟩
    rcases hmain with ⟨-, hholds, -⟩ | ⟨hm | hm | ⟨-, hwait⟩, -⟩
    · cases hholds
    · exact Or.inr ⟨Or.inl hm, rfl⟩
    · exact Or.inr ⟨Or.inr (Or.inl hm), rfl⟩
    · simp [WorkerStage.fresh] at hwait
  | runs hw => exact Or.inr (h.ran hw)

end Awaiting

theorem Phase.moved (h : Phase s) (hm : Moved s e s') : Phase s' := by
  rcases h with h | ⟨old, w, h⟩
  · exact h.moved hm
  · exact h.moved hm

end DistributedSystems.Support.Handover
