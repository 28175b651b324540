import DistributedSystems.Support.HandoverRuns

/-!
# The accept loop of the peer to peer server (`serverc/server.c`)

`main` stores what `accept` returns to `data_socket`, also when that is -1, creates a thread of
`process_request` and waits for `msg_not_copied` to be cleared; the thread copies the descriptor to
its `socket` first. The thread for the `k`-th `accept` gets the `k`-th descriptor in every run
(`accept_handover`).
-/

namespace DistributedSystems.Lab.ServerC

open Support Support.Handover

/-- `cell` is `data_socket`, `pending` is `msg_not_copied` and `holder` has `server_mutex`. A worker
is a thread of `process_request`, its `copy` is `socket` and its task what it does from `readLine`
on. -/
abbrev AcceptLoop : Type := Handover.State Int

namespace AcceptLoop

inductive Event
  /-- `accept` returns and `data_socket` is stored, without the mutex. -/
  | accept (dataSocket : Int)
  | main
  /-- A spurious wake-up of `pthread_cond_wait`. -/
  | wakeUp
  | thread (i : Nat)
deriving DecidableEq, Repr

/-- `accept` leaves nothing in `data_socket` as it was. -/
def Event.toHandover : Event → Handover.Event Int
  | .accept dataSocket => .receive (some dataSocket)
  | .main => .main
  | .wakeUp => .wake
  | .thread i => .worker i

/-- `main` before its loop. Nothing has been stored to `data_socket` yet. -/
def start (dataSocket : Int) : AcceptLoop := Handover.initial dataSocket

def next (s : AcceptLoop) (e : Event) : Option AcceptLoop := State.next s e.toHandover

def Step (s : AcceptLoop) (e : Event) (s' : AcceptLoop) : Prop := next s e = some s'

def acceptedBy (x : AcceptLoop × Event) : Option Int :=
  match x.2 with
  | .accept dataSocket => some dataSocket
  | _ => none

/-- What the calls of `accept` have returned. -/
def accepted (steps : List (AcceptLoop × Event)) : List Int := steps.filterMap acceptedBy

/-- The steps as those of the handover. -/
def handovers (steps : List (AcceptLoop × Event)) : List (AcceptLoop × Handover.Event Int) :=
  steps.map fun x => (x.1, x.2.toHandover)

/-- The threads that serve their connections, each with its `socket`. -/
def served (steps : List (AcceptLoop × Event)) : List (Nat × Int) := executions (handovers steps)

variable {steps : List (AcceptLoop × Event)} {s : AcceptLoop}

theorem items_handovers (steps : List (AcceptLoop × Event)) :
    items (handovers steps) = accepted steps := by
  unfold items handovers accepted
  rw [List.filterMap_map]
  refine List.filterMap_congr fun x _ => ?_
  obtain ⟨s, e⟩ := x
  cases e with
  | accept dataSocket => rfl
  | main => rfl
  | wakeUp => rfl
  | thread i => rfl

theorem kept_of_run {dataSocket : Int} (h : Run Step (start dataSocket) steps s) :
    Kept (handovers steps) s :=
  Kept.of_run (h.map_label fun _ _ _ hs => hs)

/-- **The thread for the `k`-th `accept` copies the `k`-th descriptor**, and no thread copies
anything else. There is one thread for each descriptor but for the one whose thread is still to be
created, `accept` stores only after all of them have their copies, and each serves its descriptor at
most once. Something can be done until all have, and not for ever. -/
theorem accept_handover {dataSocket : Int} (h : Run Step (start dataSocket) steps s) :
    (∀ (k : Nat) (w : Worker Int), s.workers[k]? = some w →
      w.copy = if w.stage.copied then (accepted steps)[k]? else none) ∧
      (accepted steps).length = s.workers.length + (if s.main = .creating then 1 else 0) ∧
      (∀ (d : Int) (s' : AcceptLoop), Step s (.accept d) s' →
        s.workers.map Worker.copy = (accepted steps).map some) ∧
      ServedOnce (accepted steps) (served steps) s ∧
      (s.Quiescent → ((served steps).map Prod.snd).Perm (accepted steps)) ∧
      (¬ s.Quiescent → ∃ e s', e.toHandover.own = true ∧ Step s e s') ∧
      ∀ (e : Event) (s' : AcceptLoop), e.toHandover.own = true → Step s e s' →
        s'.rest < s.rest := by
  have hk := kept_of_run h
  have hitems := items_handovers steps
  have hserved := hk.served
  rw [hitems] at hserved
  refine ⟨fun k w hw => ?_, hserved.length, fun d s' hs => ?_, hserved, fun hq => ?_, fun hq => ?_,
    fun e s' he hs => rest_lt hs he⟩
  · rw [← hitems]
    exact hk.copy k w hw
  · have hm : s.main = .receiving := by
      have hmoved : Moved s (.receive (some d)) s' := Handover.Step.moved hs
      cases hmoved with
      | received outcome hm => exact hm
    rw [← hitems]
    exact hk.copies_of_receiving hm
  · exact hserved.perm hq
  · obtain ⟨e, s', he, hs⟩ := hk.phase.progress hq
    cases e with
    | receive outcome => cases he
    | main => exact ⟨.main, s', he, hs⟩
    | wake => cases he
    | worker i => exact ⟨.thread i, s', he, hs⟩

/-- Two connections. The second is accepted before the first is served, and the wait for its thread
ends once without a signal. -/
def twoConnections : List Event :=
  [.accept 5, .main, .main, .main, .thread 0, .thread 0, .thread 0, .thread 0, .thread 0,
    .main, .main, .main, .main,
    .accept 6, .main, .main, .main, .wakeUp, .main, .main, .thread 1, .thread 1, .thread 1,
    .thread 1, .thread 1, .main, .main, .main, .main, .thread 1, .thread 0]

theorem twoConnections_handover :
    ∃ steps s, Run Step (start (-1)) steps s ∧ accepted steps = [5, 6] ∧ s.Quiescent ∧
      ((served steps).map Prod.snd).Perm [5, 6] := by
  obtain ⟨steps, s, hr, hq, ha⟩ : ∃ steps s, Run Step (start (-1)) steps s ∧
      s.Quiescent ∧ accepted steps = [5, 6] :=
    Run.exists_of_replay twoConnections (by decide)
  have hperm := (accept_handover hr).2.2.2.2.1 hq
  rw [ha] at hperm
  exact ⟨steps, s, hr, ha, hq, hperm⟩

end AcceptLoop

end DistributedSystems.Lab.ServerC
