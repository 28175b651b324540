import DistributedSystems.Support.Handover
import Mathlib.Algebra.GroupWithZero.Nat
import Mathlib.Data.List.Nodup

/-!
# Runs of the handover

In every run the `k`-th thread runs its task at most once, on what the cell held when it was created
(`Kept.of_run`). Something can be done until all threads have finished (`Phase.progress`), and not
for ever (`rest_lt`), and what has been executed then are the items, each once
(`ServedOnce.perm`).
-/

namespace DistributedSystems.Support.Handover

variable {β : Type}

/-! ## What a run has done -/

/-- What the cell held when the receiver came back from receiving. -/
def item (x : State β × Event β) : Option β :=
  match x.2 with
  | .receive outcome => some (outcome.getD x.1.cell)
  | _ => none

def items (steps : List (State β × Event β)) : List β := steps.filterMap item

/-- The thread that runs its task, and what it runs it on. -/
def execution (x : State β × Event β) : Option (Nat × β) :=
  match x.2 with
  | .worker i =>
    match x.1.workers[i]? with
    | some ⟨.running, some b⟩ => some (i, b)
    | _ => none
  | _ => none

def executions (steps : List (State β × Event β)) : List (Nat × β) := steps.filterMap execution

/-- Nothing is left to do until the next item comes. -/
def State.Quiescent (s : State β) : Prop :=
  s.main = .receiving ∧ ∀ w ∈ s.workers, w.stage = .finished

instance (s : State β) : Decidable s.Quiescent := inferInstanceAs (Decidable (_ ∧ _))

/-- Each thread has at most one execution, on the item with its number, and has one when it has
finished. -/
structure ServedOnce (received : List β) (executed : List (Nat × β)) (s : State β) : Prop where
  nodup : (executed.map Prod.fst).Nodup
  item : ∀ k b, (k, b) ∈ executed → received[k]? = some b
  finished : ∀ k, k ∈ executed.map Prod.fst ↔ (s.workers[k]?.map Worker.stage) = some .finished
  length : received.length = s.workers.length + if s.main = .creating then 1 else 0

variable {s s' : State β} {e : Event β} {steps : List (State β × Event β)}

theorem items_snoc (x : State β × Event β) :
    items (steps ++ [x]) = items steps ++ (item x).toList := filterMap_snoc item steps x

theorem items_snoc_of_none (steps : List (State β × Event β)) {x : State β × Event β}
    (h : item x = none) :
    items (steps ++ [x]) = items steps := by
  rw [items_snoc, h]
  exact List.append_nil _

theorem executions_snoc (x : State β × Event β) :
    executions (steps ++ [x]) = executions steps ++ (execution x).toList :=
  filterMap_snoc execution steps x

theorem executions_snoc_of_none (steps : List (State β × Event β)) {x : State β × Event β}
    (h : execution x = none) :
    executions (steps ++ [x]) = executions steps := by
  rw [executions_snoc, h]
  exact List.append_nil _

/-- The invariant of all runs. -/
structure Kept (steps : List (State β × Event β)) (s : State β) : Prop where
  phase : Phase s
  served : ServedOnce (items steps) (executions steps) s
  cell : ∀ b, (items steps).getLast? = some b → s.cell = b
  copy : ∀ (i : Nat) (w : Worker β), s.workers[i]? = some w →
    w.copy = if w.stage.copied then (items steps)[i]? else none

namespace Kept

variable {i : Nat} {w v : Worker β}

/-- Before the first message nothing is handed over. -/
theorem init (c : β) : Kept [] (initial c) where
  phase := Or.inl ⟨fun _ h => absurd h List.not_mem_nil, Or.inl ⟨Or.inl rfl, rfl, rfl⟩⟩
  served := ⟨List.nodup_nil, fun _ _ h => absurd h List.not_mem_nil, by simp [executions, initial],
    rfl⟩
  cell _ h := by cases h
  copy _ _ h := by cases h

/-- A step that no thread takes part in. -/
theorem quiet (h : Kept steps s) (hphase : Phase s') (hi : item (s, e) = none)
    (hx : execution (s, e) = none) (hw : s'.workers = s.workers) (hc : s'.cell = s.cell)
    (hm : s'.main ≠ .creating) (hm' : s.main ≠ .creating) : Kept (steps ++ [(s, e)]) s' := by
  have hitems := items_snoc_of_none steps hi
  have hexecutions := executions_snoc_of_none steps hx
  have hlen := h.served.length
  rw [if_neg hm'] at hlen
  refine ⟨hphase, ⟨?_, ?_, ?_, ?_⟩, ?_, ?_⟩
  · rw [hexecutions]
    exact h.served.nodup
  · rw [hitems, hexecutions]
    exact h.served.item
  · rw [hexecutions, hw]
    exact h.served.finished
  · rw [hitems, hw, if_neg hm]
    exact hlen
  · rw [hitems, hc]
    exact h.cell
  · rw [hitems, hw]
    exact h.copy

/-- A step of a thread that does not end it. -/
theorem thread (h : Kept steps s) (hphase : Phase s') (hi : item (s, e) = none)
    (hx : execution (s, e) = none) (hw : s.workers[i]? = some w)
    (hset : s'.workers = s.workers.set i v) (hc : s'.cell = s.cell)
    (hm : s'.main = .creating ↔ s.main = .creating) (hfin : w.stage ≠ .finished)
    (hfin' : v.stage ≠ .finished)
    (hcopy : v.copy = if v.stage.copied then (items steps)[i]? else none) :
    Kept (steps ++ [(s, e)]) s' := by
  have hitems := items_snoc_of_none steps hi
  have hexecutions := executions_snoc_of_none steps hx
  have hlt : i < s.workers.length := (List.getElem?_eq_some_iff.1 hw).1
  refine ⟨hphase, ⟨?_, ?_, ?_, ?_⟩, ?_, ?_⟩
  · rw [hexecutions]
    exact h.served.nodup
  · rw [hitems, hexecutions]
    exact h.served.item
  · intro k
    rw [hexecutions, h.served.finished k, hset, List.getElem?_set]
    by_cases hk : i = k
    · subst hk
      rw [hw, if_pos rfl, if_pos hlt]
      simp [hfin, hfin']
    · simp [hk]
  · rw [hitems, hset, List.length_set, if_congr hm rfl rfl]
    exact h.served.length
  · rw [hitems, hc]
    exact h.cell
  · intro k u hu
    rw [hitems]
    rw [hset, List.getElem?_set] at hu
    by_cases hk : i = k
    · subst hk
      rw [if_pos rfl, if_pos hlt] at hu
      rw [← Option.some.inj hu]
      exact hcopy
    · rw [if_neg hk] at hu
      exact h.copy k u hu

/-- The last thread copies the item that it was created for. -/
theorem copied (h : Kept steps s) {copy : Option β} (hw : s.workers[i]? = some ⟨.copying, copy⟩) :
    (items steps)[i]? = some s.cell := by
  rcases h.phase with hidle | ⟨old, w, ha⟩
  · have hsettled := hidle.settled _ (List.mem_of_getElem? hw)
    cases hsettled
  · obtain ⟨rfl, rfl⟩ := ha.last hw rfl
    have hcreating : s.main ≠ .creating := by
      intro hm
      simpa [hm] using ha.main
    have hlen := h.served.length
    rw [if_neg hcreating, ha.workers, List.length_append, List.length_singleton] at hlen
    have hlast : (items steps).getLast? = (items steps)[old.length]? := by
      rw [List.getLast?_eq_getElem?, hlen]
      rfl
    obtain ⟨b, hb⟩ : ∃ b, (items steps)[old.length]? = some b := by
      rw [List.getElem?_eq_getElem (by omega)]
      exact ⟨_, rfl⟩
    rw [hb, h.cell b (hlast.trans hb)]

/-- An attempt to receive. The thread for what is in the cell then is still to be created. -/
theorem received (h : Kept steps s) (outcome : Option β) (hm : s.main = .receiving)
    (hphase : Phase { s with cell := outcome.getD s.cell, main := .creating }) :
    Kept (steps ++ [(s, .receive outcome)])
      { s with cell := outcome.getD s.cell, main := .creating } := by
  have hlen := h.served.length
  rw [hm] at hlen
  have hitems : items (steps ++ [(s, .receive outcome)]) =
      items steps ++ [outcome.getD s.cell] := items_snoc _
  have hexecutions := executions_snoc_of_none steps (x := (s, .receive outcome)) rfl
  refine ⟨hphase, ⟨?_, fun k b hb => ?_, ?_, ?_⟩, fun b hb => ?_, fun i w hw => ?_⟩
  · rw [hexecutions]
    exact h.served.nodup
  · rw [hexecutions] at hb
    have hget := h.served.item k b hb
    rw [hitems, List.getElem?_append_left (List.getElem?_eq_some_iff.1 hget).1]
    exact hget
  · rw [hexecutions]
    exact h.served.finished
  · rw [hitems, List.length_append, hlen]
    rfl
  · rw [hitems, List.getLast?_concat] at hb
    exact Option.some.inj hb
  · have hlt : i < (items steps).length := by
      rw [hlen]
      exact (List.getElem?_eq_some_iff.1 hw).1
    rw [hitems, List.getElem?_append_left hlt]
    exact h.copy i w hw

/-- A worker that is created has its item to come. -/
theorem created (h : Kept steps s) (hm : s.main = .creating)
    (hphase : Phase { s with workers := s.workers ++ [⟨.locking, none⟩], main := .locking }) :
    Kept (steps ++ [(s, .main)])
      { s with workers := s.workers ++ [⟨.locking, none⟩], main := .locking } := by
  have hlen := h.served.length
  rw [if_pos hm] at hlen
  have hitems := items_snoc_of_none steps (x := (s, .main)) rfl
  have hexecutions := executions_snoc_of_none steps (x := (s, .main)) rfl
  refine ⟨hphase, ⟨?_, ?_, fun k => ?_, ?_⟩, ?_, fun i w hw => ?_⟩
  · rw [hexecutions]
    exact h.served.nodup
  · rw [hitems, hexecutions]
    exact h.served.item
  · rw [hexecutions, h.served.finished k, List.getElem?_append]
    split
    · rfl
    · rename_i hk
      rw [List.getElem?_eq_none (by omega)]
      cases k - s.workers.length <;> simp
  · rw [hitems, hlen]
    simp
  · rw [hitems]
    exact h.cell
  · rw [hitems]
    rw [List.getElem?_append] at hw
    split at hw
    · exact h.copy i w hw
    · obtain rfl : ⟨.locking, none⟩ = w := (List.mem_singleton.1 (List.mem_of_getElem? hw)).symm
      rfl

/-- A thread runs its task, on the item with its number. -/
theorem ran (h : Kept steps s) {copy : Option β} (hw : s.workers[i]? = some ⟨.running, copy⟩)
    (hphase : Phase (s.setWorker i ⟨.finished, copy⟩)) :
    Kept (steps ++ [(s, .worker i)]) (s.setWorker i ⟨.finished, copy⟩) := by
  have hcopy : copy = (items steps)[i]? := h.copy _ _ hw
  have hlt : i < s.workers.length := (List.getElem?_eq_some_iff.1 hw).1
  have hle : s.workers.length ≤ (items steps).length := by
    rw [h.served.length]
    exact Nat.le_add_right _ _
  obtain ⟨b, hb⟩ : ∃ b, (items steps)[i]? = some b := by
    rw [List.getElem?_eq_getElem (by omega)]
    exact ⟨_, rfl⟩
  rw [hb] at hcopy
  subst hcopy
  have hitems := items_snoc_of_none steps (x := (s, .worker i)) rfl
  have hexecutions : executions (steps ++ [(s, .worker i)]) = executions steps ++ [(i, b)] := by
    rw [executions_snoc]
    simp [execution, hw]
  have hnew : i ∉ (executions steps).map Prod.fst := by
    rw [h.served.finished, hw]
    simp
  refine ⟨hphase, ⟨?_, fun k c hc => ?_, fun k => ?_, ?_⟩, ?_, fun k u hu => ?_⟩
  · rw [hexecutions, List.map_append, List.nodup_append]
    refine ⟨h.served.nodup, List.nodup_singleton _, ?_⟩
    rintro k hk k' hk' rfl
    have hki : k = i := List.mem_singleton.1 hk'
    exact hnew (hki ▸ hk)
  · rw [hitems]
    rw [hexecutions] at hc
    rcases List.mem_append.1 hc with hc | hc
    · exact h.served.item k c hc
    · obtain ⟨rfl, rfl⟩ := Prod.mk.inj (List.mem_singleton.1 hc)
      exact hb
  · rw [hexecutions, List.map_append, List.mem_append, h.served.finished k, State.setWorker,
      List.getElem?_set]
    by_cases hk : i = k
    · subst hk
      simp [hlt]
    · simp [hk, Ne.symm hk]
  · rw [hitems, State.setWorker, List.length_set]
    exact h.served.length
  · rw [hitems]
    exact h.cell
  · rw [hitems]
    rw [State.setWorker, List.getElem?_set] at hu
    by_cases hk : i = k
    · subst hk
      rw [if_pos rfl, if_pos hlt] at hu
      rw [← Option.some.inj hu]
      exact hb.symm
    · rw [if_neg hk] at hu
      exact h.copy k u hu

/-- Every step keeps the invariant. -/
theorem step (h : Kept steps s) (hs : Step s e s') : Kept (steps ++ [(s, e)]) s' := by
  have hm := hs.moved
  have hphase := h.phase.moved hm
  cases hm with
  | received outcome hm => exact h.received outcome hm hphase
  | created hm => exact h.created hm hphase
  | locked hm hh =>
    exact h.quiet hphase rfl rfl rfl rfl (by simp) (by rcases hm with hm | hm <;> simp [hm])
  | waits hm hp => exact h.quiet hphase rfl rfl rfl rfl (by simp) (by simp [hm])
  | passes hm hp => exact h.quiet hphase rfl rfl rfl rfl (by simp) (by simp [hm])
  | set hm => exact h.quiet hphase rfl rfl rfl rfl (by simp) (by simp [hm])
  | unlocked hm => exact h.quiet hphase rfl rfl rfl rfl (by simp) (by simp [hm])
  | woken hm => exact h.quiet hphase rfl rfl rfl rfl (by simp) (by simp [hm])
  | locks hw hh =>
    have hcopy := h.copy _ _ hw
    exact h.thread hphase rfl (by simp [execution, hw]) hw rfl rfl Iff.rfl (by simp) (by simp)
      hcopy
  | copies hw =>
    exact h.thread hphase rfl (by simp [execution, hw]) hw rfl rfl Iff.rfl (by simp) (by simp)
      (h.copied hw).symm
  | clears hw =>
    have hcopy := h.copy _ _ hw
    exact h.thread hphase rfl (by simp [execution, hw]) hw rfl rfl Iff.rfl (by simp) (by simp)
      hcopy
  | signals hw =>
    have hcopy := h.copy _ _ hw
    have hcreating : (if s.main = .waiting then MainStage.woken else s.main) = .creating ↔
        s.main = .creating := by
      split
      · rename_i hm
        simp [hm]
      · exact Iff.rfl
    exact h.thread hphase rfl (by simp [execution, hw]) hw rfl rfl hcreating (by simp) (by simp)
      hcopy
  | unlocks hw =>
    have hcopy := h.copy _ _ hw
    exact h.thread hphase rfl (by simp [execution, hw]) hw rfl rfl Iff.rfl (by simp) (by simp)
      hcopy
  | runs hw => exact h.ran hw hphase

/-- And so every run does. -/
theorem of_run {c : β} (h : Run Step (initial c) steps s) : Kept steps s := by
  induction h with
  | nil => exact init c
  | snoc _ hs ih => exact ih.step hs

/-- Nothing is stored to the cell before all threads have their copies. -/
theorem copied_of_receiving (h : Kept steps s) (hm : s.main = .receiving) (hw : w ∈ s.workers) :
    w.copy.isSome := by
  obtain ⟨i, hi⟩ := List.getElem?_of_mem hw
  have hlen := h.served.length
  rw [hm] at hlen
  have hsettled : w.stage.settled = true := by
    rcases h.phase with hidle | ⟨old, v, ha⟩
    · exact hidle.settled w hw
    · have hmain := ha.main
      simp [hm] at hmain
  have hcopied : w.stage.copied = true := by
    obtain ⟨stage, copy⟩ := w
    cases stage <;> simp_all [WorkerStage.settled, WorkerStage.copied]
  have hlt : i < (items steps).length := by
    rw [hlen]
    exact (List.getElem?_eq_some_iff.1 hi).1
  rw [h.copy i w hi, if_pos hcopied, List.getElem?_eq_getElem hlt]
  rfl

/-- When the receiver receives again, the copies are the items in order. -/
theorem copies_of_receiving (h : Kept steps s) (hm : s.main = .receiving) :
    s.workers.map Worker.copy = (items steps).map some := by
  have hlen := h.served.length
  rw [hm] at hlen
  apply List.ext_getElem?
  intro k
  rw [List.getElem?_map, List.getElem?_map]
  cases hw : s.workers[k]? with
  | none =>
    have hk : (items steps)[k]? = none := by
      rw [List.getElem?_eq_none_iff, hlen]
      exact List.getElem?_eq_none_iff.1 hw
    rw [hk]
    rfl
  | some w =>
    have hcopy := h.copy k w hw
    have hsome := h.copied_of_receiving hm (List.mem_of_getElem? hw)
    split at hcopy
    · have hk : k < (items steps).length := by
        rw [hlen]
        exact (List.getElem?_eq_some_iff.1 hw).1
      rw [Option.map_some, hcopy, List.getElem?_eq_getElem hk]
      rfl
    · rw [hcopy] at hsome
      cases hsome

end Kept

/-! ## Progress -/

/-- An attempt to receive, and all steps of the thread that it makes. -/
def Event.round (outcome : Option β) (i : Nat) : List (Event β) :=
  [.receive outcome, .main, .worker i, .worker i, .worker i, .worker i, .worker i,
    .main, .main, .main, .main, .worker i]

/-- The step is one of the receiver or of a thread, and neither a new item nor a wake-up. -/
def Event.own : Event β → Bool
  | .main | .worker _ => true
  | _ => false

namespace WorkerStage

/-- How many steps the thread has left. -/
def rest : WorkerStage → Nat
  | locking => 6
  | copying => 5
  | clearing => 4
  | signalling => 3
  | unlocking => 2
  | running => 1
  | finished => 0

end WorkerStage

/-- A bound on the steps of the receiver until it receives again. A woken receiver may have to wait
once more, and a thread has to be created. -/
def MainStage.rest : MainStage → Nat
  | receiving => 0
  | unlocking => 1
  | setting => 2
  | waiting => 3
  | testing => 4
  | locking | woken => 5
  | creating => 66

/-- A bound on the own steps that are left. -/
def State.rest (s : State β) : Nat :=
  s.main.rest + 10 * (s.workers.map fun w => w.stage.rest).sum

/-- The steps that are left, when one worker takes one. -/
theorem sum_set {ws : List (Worker β)} {i : Nat} {w v : Worker β} (hw : ws[i]? = some w) :
    ((ws.set i v).map fun w => w.stage.rest).sum + w.stage.rest =
      (ws.map fun w => w.stage.rest).sum + v.stage.rest := by
  induction ws generalizing i with
  | nil => cases hw
  | cons u ws ih =>
    cases i with
    | zero =>
      obtain rfl := Option.some.inj hw
      simp only [List.set_cons_zero, List.map_cons, List.sum_cons]
      omega
    | succ i =>
      have hrest := ih (i := i) hw
      simp only [List.set_cons_succ, List.map_cons, List.sum_cons]
      omega

/-- Own steps come to an end. -/
theorem rest_lt (hs : Step s e s') (he : e.own = true) : s'.rest < s.rest := by
  have hm := hs.moved
  unfold State.rest
  cases hm with
  | received outcome hm => cases he
  | created hm =>
    simp only [List.map_append, List.sum_append, hm]
    simp only [List.map_cons, List.map_nil, List.sum_cons, List.sum_nil, WorkerStage.rest,
      MainStage.rest]
    omega
  | locked hm hh => rcases hm with hm | hm <;> simp [hm, MainStage.rest]
  | waits hm hp => simp [hm, MainStage.rest]
  | passes hm hp => simp [hm, MainStage.rest]
  | set hm => simp [hm, MainStage.rest]
  | unlocked hm => simp [hm, MainStage.rest]
  | woken hm => cases he
  | @locks i copy hw hh =>
    have hsum := sum_set (v := ⟨.copying, copy⟩) hw
    simp only [WorkerStage.rest, State.setWorker] at hsum ⊢
    omega
  | copies hw =>
    have hsum := sum_set (v := ⟨.clearing, some s.cell⟩) hw
    simp only [WorkerStage.rest, State.setWorker] at hsum ⊢
    omega
  | @clears i copy hw =>
    have hsum := sum_set (v := ⟨.signalling, copy⟩) hw
    simp only [WorkerStage.rest, State.setWorker] at hsum ⊢
    omega
  | @signals i copy hw =>
    have hsum := sum_set (v := ⟨.unlocking, copy⟩) hw
    have hmain : (if s.main = .waiting then MainStage.woken else s.main).rest ≤
        s.main.rest + 2 := by
      split
      · rename_i hm
        rw [hm]
        exact Nat.le_refl _
      · exact Nat.le_add_right _ _
    simp only [WorkerStage.rest, State.setWorker] at hsum ⊢
    omega
  | @unlocks i copy hw =>
    have hsum := sum_set (v := ⟨.running, copy⟩) hw
    simp only [WorkerStage.rest, State.setWorker] at hsum ⊢
    omega
  | @runs i copy hw =>
    have hsum := sum_set (v := ⟨.finished, copy⟩) hw
    simp only [WorkerStage.rest, State.setWorker] at hsum ⊢
    omega

theorem step_worker {i : Nat} {w : Worker β} (hw : s.workers[i]? = some w)
    (h : (s.workerNext i w).isSome) : ∃ e s', Event.own e = true ∧ Step s e s' := by
  obtain ⟨s', hs'⟩ := Option.isSome_iff_exists.1 h
  refine ⟨.worker i, s', rfl, ?_⟩
  unfold Step State.next
  dsimp only
  rw [hw]
  exact hs'

theorem step_main (h : s.mainNext.isSome) : ∃ e s', Event.own e = true ∧ Step s e s' := by
  obtain ⟨s', hs'⟩ := Option.isSome_iff_exists.1 h
  exact ⟨.main, s', rfl, hs'⟩

/-- While `main` waits for the copy, it or its last worker can go on. -/
theorem Awaiting.progress {old : List (Worker β)} {w : Worker β} (h : Awaiting s old w) :
    ∃ e s', Event.own e = true ∧ Step s e s' := by
  have hw : s.workers[old.length]? = some w := by
    rw [h.workers, List.getElem?_append_right (Nat.le_refl _), Nat.sub_self]
    rfl
  obtain ⟨stage, copy⟩ := w
  rcases h.main with ⟨hm, -, -⟩ | ⟨hm, hh⟩
  · apply step_main
    unfold State.mainNext
    rw [hm]
    dsimp only
    split <;> rfl
  · cases stage with
    | locking =>
      apply step_worker hw
      have hnone : s.holder = none := hh
      unfold State.workerNext
      simp [hnone]
    | copying => exact step_worker hw rfl
    | clearing => exact step_worker hw rfl
    | signalling => exact step_worker hw rfl
    | unlocking => exact step_worker hw rfl
    | running => exact step_worker hw rfl
    | finished =>
      -- the receiver cannot be waiting any more
      have hnone : s.holder = none := hh
      rcases hm with hm | hm | ⟨-, hwait⟩
      · apply step_main
        unfold State.mainNext
        simp [hm, hnone]
      · apply step_main
        unfold State.mainNext
        simp [hm, hnone]
      · simp [WorkerStage.fresh] at hwait

/-- Until nothing is left to do, `main` or a worker can go on. -/
theorem Idle.progress (h : Idle s) (hq : ¬ s.Quiescent) :
    ∃ e s', Event.own e = true ∧ Step s e s' := by
  rcases h.main with ⟨hm | hm, -⟩ | ⟨hm, -⟩ | ⟨hm, -⟩
  · have hex : ∃ w ∈ s.workers, w.stage ≠ .finished := by
      by_contra hall
      refine hq ⟨hm, fun w hw => ?_⟩
      by_contra hne
      exact hall ⟨w, hw, hne⟩
    obtain ⟨⟨stage, copy⟩, hmem, hne⟩ := hex
    have hsettled := h.settled _ hmem
    obtain ⟨i, hi⟩ := List.getElem?_of_mem hmem
    cases stage with
    | running => exact step_worker hi rfl
    | finished => exact absurd rfl hne
    | _ => cases hsettled
  all_goals
    apply step_main
    unfold State.mainNext
    rw [hm]
    rfl

/-- While something is left to do, the receiver or a thread can take a step. -/
theorem Phase.progress (h : Phase s) (hq : ¬ s.Quiescent) :
    ∃ e s', Event.own e = true ∧ Step s e s' := by
  rcases h with h | ⟨old, w, h⟩
  · exact h.progress hq
  · exact h.progress

/-! ## When everything is done -/

theorem filterMap_range (xs : List β) : (List.range xs.length).filterMap (xs[·]?) = xs := by
  induction xs with
  | nil => rfl
  | cons x xs ih =>
    rw [List.length_cons, List.range_succ_eq_map, List.filterMap_cons, List.filterMap_map]
    exact congrArg (x :: ·) ih

/-- At rest, what has been executed are the items, each once. -/
theorem ServedOnce.perm {received : List β} {executed : List (Nat × β)}
    (h : ServedOnce received executed s) (hq : s.Quiescent) :
    (executed.map Prod.snd).Perm received := by
  have hlen := h.length
  rw [hq.1] at hlen
  have hkeys : (executed.map Prod.fst).Perm (List.range received.length) := by
    rw [List.perm_ext_iff_of_nodup h.nodup List.nodup_range]
    intro k
    rw [h.finished, List.mem_range, hlen]
    constructor
    · intro hk
      by_contra hge
      rw [List.getElem?_eq_none (by simpa using hge)] at hk
      cases hk
    · intro hk
      have hk : k < s.workers.length := hk
      rw [List.getElem?_eq_getElem hk, Option.map_some,
        hq.2 _ (List.getElem_mem hk)]
  have hvalues : (executed.map Prod.fst).filterMap (received[·]?) = executed.map Prod.snd := by
    rw [List.filterMap_map, ← List.filterMap_eq_map]
    exact List.filterMap_congr fun x hx => h.item x.1 x.2 hx
  calc executed.map Prod.snd = (executed.map Prod.fst).filterMap (received[·]?) := hvalues.symm
    List.Perm _ ((List.range received.length).filterMap (received[·]?)) := hkeys.filterMap _
    _ = received := filterMap_range received

/-! ## What has arrived -/

/-- The receiver does not come back with nothing. -/
def Event.arrives : Event β → Bool
  | .receive none => false
  | _ => true

def arrival (x : State β × Event β) : Option β :=
  match x.2 with
  | .receive outcome => outcome
  | _ => none

def arrivals (steps : List (State β × Event β)) : List β := steps.filterMap arrival

theorem arrival_eq_item {x : State β × Event β} (h : x.2.arrives = true) :
    arrival x = item x := by
  obtain ⟨s, e⟩ := x
  cases e with
  | receive outcome =>
    cases outcome with
    | none => cases h
    | some b => rfl
  | main => rfl
  | wake => rfl
  | worker i => rfl

/-- A receive that fails hands over what is in the cell from before. -/
theorem failed_item {x : State β × Event β} (h : x.2.arrives = false) :
    arrival x = none ∧ item x = some x.1.cell := by
  obtain ⟨s, e⟩ := x
  cases e with
  | receive outcome =>
    cases outcome with
    | none => exact ⟨rfl, rfl⟩
    | some b => cases h
  | main => cases h
  | wake => cases h
  | worker i => cases h

/-- If every receive succeeds, what is handed over is what arrives. -/
theorem items_eq_arrivals (h : Guarded (fun _ e => e.arrives = true) steps) :
    items steps = arrivals steps :=
  List.filterMap_congr fun x hx => (arrival_eq_item (h x hx)).symm

/-- Each attempt that fails makes an item as well. -/
theorem length_arrivals (steps : List (State β × Event β)) :
    (arrivals steps).length + steps.countP (fun x => !x.2.arrives) = (items steps).length := by
  induction steps with
  | nil => rfl
  | cons x steps ih =>
    unfold arrivals items at ih ⊢
    rw [List.filterMap_cons, List.filterMap_cons, List.countP_cons]
    by_cases h : x.2.arrives = true
    · rw [arrival_eq_item h, h]
      cases item x with
      | none => exact ih
      | some b =>
        simp only [List.length_cons, Bool.not_true, Bool.false_eq_true, if_false]
        omega
    · have hfalse : x.2.arrives = false := by simpa using h
      obtain ⟨harrival, hitem⟩ := failed_item hfalse
      rw [harrival, hitem, hfalse]
      simp only [List.length_cons, Bool.not_false, if_true]
      omega

/-- At rest, what has been executed is what has arrived, exactly if no attempt has failed. -/
theorem ServedOnce.perm_arrivals_iff {executed : List (Nat × β)}
    (h : ServedOnce (items steps) executed s) (hq : s.Quiescent) :
    (executed.map Prod.snd).Perm (arrivals steps) ↔
      Guarded (fun _ e => e.arrives = true) steps := by
  have hperm := h.perm hq
  constructor
  · intro hp x hx
    have hlen := length_arrivals steps
    rw [← hp.length_eq, hperm.length_eq] at hlen
    have hzero : steps.countP (fun x => !x.2.arrives) = 0 := by omega
    simpa using List.countP_eq_zero.1 hzero x hx
  · intro hG
    rw [← items_eq_arrivals hG]
    exact hperm

end DistributedSystems.Support.Handover
