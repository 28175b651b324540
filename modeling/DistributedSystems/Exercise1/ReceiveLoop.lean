import DistributedSystems.Exercise1.Server
import DistributedSystems.Support.HandoverRuns

/-!
# The receive loop of the vector server (`Exercise1/server.c`)

`main` receives every message into the same `req`, creates a thread of `process_request` for it and
waits for `msg_not_copied` to be cleared; the thread copies `req` to its `req_local` first. After an
`mq_receive` that fails `main` goes on with what `req` holds, so a thread is created for no message.
In a run where none fails `function_selector` is called once for each message, on a copy of it
(`functionSelector_once_iff`). After one that fails it is called once more on the message before.
-/

namespace DistributedSystems.Exercise1

open Support Support.Handover

/-- What the server's queue holds: a request, and the queue its answer goes to. -/
structure Message where
  request : Request
  qName : Bytes
deriving DecidableEq, Repr

/-- `cell` is `req`, `pending` is `msg_not_copied` and `holder` has `mutex_msg`. A worker is a
thread of `process_request`, its `copy` is `req_local` and its task the call of
`function_selector`. -/
abbrev ReceiveLoop : Type := Handover.State Message

namespace ReceiveLoop

/-- `main` before its loop. Nothing has been stored to `req` yet. -/
def start (req : Message) : ReceiveLoop := Handover.initial req

/-- `mq_receive` does not return -1. -/
def Received (_ : ReceiveLoop) (e : Event Message) : Prop := e.arrives = true

instance (s : ReceiveLoop) (e : Event Message) : Decidable (Received s e) :=
  inferInstanceAs (Decidable (_ = _))

variable {req : Message} {steps : List (ReceiveLoop × Event Message)} {s : ReceiveLoop}

/-- In a run where no `mq_receive` fails, **every thread calls `function_selector` at most once, on
the message it was created for**, and when nothing is left to do the calls are those for the
messages, each once; after a run with one that fails they are not. Something is left to do until
then, and only finitely much. -/
theorem functionSelector_once_iff (h : Run Handover.Step (start req) steps s) :
    (Guarded Received steps → ServedOnce (arrivals steps) (executions steps) s) ∧
      (s.Quiescent →
        (((executions steps).map Prod.snd).Perm (arrivals steps) ↔ Guarded Received steps)) ∧
      (¬ s.Quiescent → ∃ e s', e.own = true ∧ Handover.Step s e s') ∧
      ∀ e s', e.own = true → Handover.Step s e s' → s'.rest < s.rest := by
  have hk : Kept steps s := Kept.of_run h
  refine ⟨fun hG => ?_, fun hq => ?_, fun hq => ?_, fun e s' he hs => ?_⟩
  · rw [← items_eq_arrivals hG]
    exact hk.served
  · exact hk.served.perm_arrivals_iff hq
  · exact hk.phase.progress hq
  · exact rest_lt hs he

/-- `init` of a vector of one element. -/
def initMessage : Message := ⟨⟨0, [118, 49], 1, 0⟩, [47, 52, 50]⟩

theorem initMessage_once :
    ∃ steps s, Run Handover.Step (start initMessage) steps s ∧
      ((executions steps).map Prod.snd).Perm [initMessage] := by
  obtain ⟨steps, s, hr, hG, hq, hm⟩ : ∃ steps s, Run Handover.Step (start initMessage) steps s ∧
      Guarded Received steps ∧ s.Quiescent ∧ arrivals steps = [initMessage] :=
    Run.exists_of_replay (Event.round (some initMessage) 0) (by decide)
  have honce := (functionSelector_once_iff hr).2.1 hq
  exact ⟨steps, s, hr, hm ▸ honce.2 hG⟩

/-- After the message one `mq_receive` fails, and two threads call `function_selector` on it. -/
theorem initMessage_twice :
    ∃ steps s, Run Handover.Step (start initMessage) steps s ∧ s.Quiescent ∧
      arrivals steps = [initMessage] ∧
      executions steps = [(0, initMessage), (1, initMessage)] ∧
      ¬ ((executions steps).map Prod.snd).Perm (arrivals steps) :=
  Run.exists_of_replay (Event.round (some initMessage) 0 ++ Event.round none 1) (by decide)

end ReceiveLoop

end DistributedSystems.Exercise1
