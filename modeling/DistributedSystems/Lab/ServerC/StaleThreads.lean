import DistributedSystems.Lab.ServerC.StaleLocals
import DistributedSystems.Lab.ServerC.ThreadEnds
import DistributedSystems.Lab.ServerC.WholeReplies

/-!
# What the variables of a thread held before

A thread whose fields have not come replies with what its buffers held (`StaleLocals.lean`), and
one of a LIST_CONTENT for a name without an entry gives `closedir` what `directory` held, which may
end the process. There is no other way in which the variables show
(`processRequest_independent_iff`).
-/

namespace DistributedSystems.Lab.Traced

open Fs Support

/-- A thread for a connection on which these bytes arrive. Its sends and writes will be whole. -/
def accepted (s : Store) (request : Bytes) : World :=
  ⟨s, received request, fun _ => .whole, 0, .empty⟩

/-- Two threads that differ in what their variables held send the same bytes, and leave the same
store or both end the process. -/
def Independent (env : Env) (w : World) : Prop :=
  ∀ v v' calls calls' after after', Finishes env w (processRequest v) calls after →
    Finishes env w (processRequest v') calls' after' →
      sentBytes calls = sentBytes calls' ∧ after.map World.store = after'.map World.store

/-- If the bytes name a LIST_CONTENT, the name that it is about has an entry in `./Users`, or
`./Users` cannot be looked through. -/
def FindsListed (c : SysCalls) (t : Tree) (a : Arrived) : Prop :=
  ∀ userop userName, operationOf .zeros a = some (.listContent userop userName) →
    Lab.isusrRegistered c t userName.text ≠ 0

theorem operationOf_listContent {locals : Locals} {a : Arrived}
    (h : (a.next locals.message).text = Command.listContentList) :
    operationOf locals a =
      some (.listContent (a.rest.next locals.useropName) (a.rest.rest.next locals.userName)) := by
  unfold operationOf
  rw [h]
  rfl

theorem text_of_operationOf_listContent {locals : Locals} {a : Arrived} {userop userName : Line}
    (h : operationOf locals a = some (.listContent userop userName)) :
    (a.next locals.message).text = Command.listContentList ∧
      userName = a.rest.rest.next locals.userName := by
  by_cases hcommand : (a.next locals.message).text = Command.listContentList
  · rw [operationOf_listContent hcommand] at h
    obtain ⟨-, rfl⟩ := Operation.listContent.inj (Option.some.inj h)
    exact ⟨hcommand, rfl⟩
  · -- no other branch reads a LIST_CONTENT
    unfold operationOf at h
    simp only [if_neg hcommand] at h
    split_ifs at h
    all_goals cases h

section Arrivals

variable {c : SysCalls} {t : Tree} {v : Variables} (a : Arrived)

theorem misses_arrived_iff {locals : Locals} :
    Misses c t locals (received a.bytes) ↔
      Lab.isusrRegistered c t (a.rest.next locals.userName).text = 0 := by
  have huserop : receive locals.useropName (received a.bytes) =
      some (a.next locals.useropName, received a.rest.bytes) := receive_arrived (by decide) _ a
  have huser : receive locals.userName (received a.rest.bytes) =
      some (a.rest.next locals.userName, received a.rest.rest.bytes) :=
    receive_arrived (by decide) _ a.rest
  constructor
  · rintro ⟨userop, rest, user, rest', h, h', hzero⟩
    obtain ⟨-, rfl⟩ := Prod.mk.inj (Option.some.inj (huserop.symm.trans h))
    obtain ⟨rfl, -⟩ := Prod.mk.inj (Option.some.inj (huser.symm.trans h'))
    exact hzero
  · intro hzero
    exact ⟨_, _, _, _, huserop, huser, hzero⟩

theorem strays_arrived_iff :
    Strays c t v (received a.bytes) ↔
      v.directory ≠ none ∧ (a.next v.message).text = Command.listContentList ∧
        Lab.isusrRegistered c t (a.rest.rest.next v.userName).text = 0 := by
  have hmessage : receive v.message (received a.bytes) =
      some (a.next v.message, received a.rest.bytes) := receive_arrived (by decide) _ a
  unfold Strays
  refine and_congr_right fun _ => ⟨?_, ?_⟩
  · rintro ⟨message, rest, h, hcommand, hmisses⟩
    obtain ⟨rfl, rfl⟩ := Prod.mk.inj (Option.some.inj (hmessage.symm.trans h))
    exact ⟨hcommand, (misses_arrived_iff a.rest).1 hmisses⟩
  · rintro ⟨hcommand, hzero⟩
    exact ⟨_, _, hmessage, hcommand, (misses_arrived_iff a.rest).2 hzero⟩

end Arrivals

section Independent

variable {cwd : Pos} {env : Env} (s : Store)

/-- What a thread sends and leaves when its calls return. -/
theorem sent_and_left (v : Variables) (request : Bytes) :
    (sentBytes ((processRequest v).trace (exec env) (accepted s request)),
        ((processRequest v).run (exec env) (accepted s request)).2.store) =
      Lab.processRequest env.calls env.allocated v.toLocals ⟨received request, env.address⟩ s := by
  obtain ⟨hbytes, hstore⟩ := processRequest_sends env v (w := accepted s request) fun _ => rfl
  exact Prod.ext hbytes hstore

/-- Threads that agree however they end agree when their calls return. -/
theorem Independent.replies {s : Store} {request : Bytes}
    (h : Independent env (accepted s request)) (locals locals' : Locals) :
    Lab.processRequest env.calls env.allocated locals ⟨received request, env.address⟩ s =
      Lab.processRequest env.calls env.allocated locals' ⟨received request, env.address⟩ s := by
  obtain ⟨hbytes, hstore⟩ :=
    h ⟨locals, none⟩ ⟨locals', none⟩ _ _ _ _ .returns .returns
  rw [← sent_and_left s ⟨locals, none⟩ request, ← sent_and_left s ⟨locals', none⟩ request]
  exact Prod.ext hbytes (Option.some.inj hstore)

/-- A thread that may end the process may also leave a store. -/
theorem Independent.not_breaks {w : World} (h : Independent env w) (v : Variables) :
    ¬ pointers.Breaks (exec env) (processRequest v) w [] := by
  intro hbreaks
  obtain ⟨-, hstore⟩ := h v v _ _ _ _ .returns (.aborts hbreaks)
  cases hstore

/-- A name without an entry leaves it to `directory` whether the process ends. -/
theorem Independent.findsListed {s : Store} {a : Arrived}
    (h : Independent env (accepted s a.bytes)) : FindsListed env.calls s.tree a := by
  intro userop userName hop hzero
  obtain ⟨hcommand, rfl⟩ := text_of_operationOf_listContent hop
  refine h.not_breaks { Locals.zeros with directory := some 0 } ?_
  rw [processRequest_breaks_iff]
  exact (strays_arrived_iff a).2 ⟨by simp, hcommand, hzero⟩

/-- A thread that goes by what has come, and does not look for a name without an entry. -/
theorem not_breaks_of_determined {a : Arrived}
    (h : Determined env.calls env.address s a) (hlisted : FindsListed env.calls s.tree a)
    (v : Variables) :
    ¬ pointers.Breaks (exec env) (processRequest v) (accepted s a.bytes) [] := by
  rw [processRequest_breaks_iff]
  intro hstrays
  obtain ⟨-, hcommand, hzero⟩ := (strays_arrived_iff a).1 hstrays
  obtain ⟨op, hop, hdetermined⟩ := h
  have ha : a.Comes := by
    by_contra ha
    rw [operationOf_zeros_of_not_comes ha] at hop
    cases hop
  rw [Arrived.next_of_comes ha v.message Locals.zeros.message] at hcommand
  have hlist := operationOf_listContent hcommand
  obtain rfl := Option.some.inj (hlist.symm.trans hop)
  rcases hdetermined with hcomes | ⟨hclosed, -⟩
  · refine hlisted _ _ hlist ?_
    rw [Arrived.next_of_comes hcomes Locals.zeros.userName v.userName]
    exact hzero
  · have hfails : Lab.isusrRegistered env.calls s.tree (a.rest.rest.next v.userName).text = -1 :=
      searchDirectory_of_not_opens hclosed _
    have hzero' : (-1 : Int) = 0 := hfails.symm.trans hzero
    cases hzero'

variable (hc : env.calls ≤ posix cwd)

include hc

end Independent

/-- A LIST_CONTENT for a name without an entry may end the process, or not, as `directory` holds
something or NULL. -/
example : ¬ Independent posixEnv
    (accepted startStore (cstring "LIST_CONTENT\x00alice\x00carol\x00")) := by
  intro h
  exact h.not_breaks { Variables.zeros with directory := some 7 } (by decide)

end DistributedSystems.Lab.Traced
