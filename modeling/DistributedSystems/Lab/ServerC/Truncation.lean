import DistributedSystems.Lab.ServerC.Server

/-!
# Truncated requests

A connection that closes early should leave the store as it was. The reader takes the end of the
stream for the end of a field, so what decides is the operation that it reads from the bytes that
came: they are without an effect exactly when that operation is (`processRequest_eq_self_iff`).
-/

namespace DistributedSystems.Lab

open Fs

/-- The fields of a well-formed request for one of the six operations on the store: the name of the
command and its arguments. -/
def WellFormed (fields : List Field) : Prop :=
  ∃ command arguments, fields = command :: arguments ∧
    (command.text, arguments.length) ∈
      [(Command.register, 1), (Command.unregister, 1), (Command.connect, 2),
        (Command.disconnect, 1), (Command.publish, 3), (Command.delete, 2)]

variable {cwd : Pos} {allocated : Bool} {locals : Locals} {address : Option Bytes} {s : Store}

theorem Operation.run_eq_self_iff (op : Operation) :
    (op.run (posix cwd) allocated address s).2 = s ↔
      ∀ r, op = .change r → Idle cwd address s r := by
  cases op with
  | change r =>
    simp only [Operation.run, serve_eq_self_iff, Operation.change.injEq]
    exact ⟨fun h _ he => he ▸ h, fun h => h r rfl⟩
  | listUsers u => simp [Operation.run]
  | listContent o u => simp [Operation.run]

/-- **Truncated requests**: whatever bytes come before the connection closes, the store is as before
exactly when they name none of the six operations or one without an effect. -/
theorem processRequest_eq_self_iff (pre : Bytes) :
    (processRequest (posix cwd) allocated locals ⟨received pre, address⟩ s).2 = s ↔
      ∀ r, operationOf locals (.of pre) = some (.change r) → Idle cwd address s r := by
  have hrun := processRequest_arrived (posix cwd) allocated locals address s (.of pre)
  rw [Arrived.bytes_of] at hrun
  rw [hrun]
  cases operationOf locals (.of pre) with
  | none => simp
  | some op =>
    simp only [Option.some.injEq]
    exact op.run_eq_self_iff

/-- `REGISTER alice`, cut after the second letter of the name, registers `al`. -/
theorem truncated_register_registers :
    ¬ ∀ (cwd : Pos) (allocated : Bool) (locals : Locals) (address : Option Bytes) (s : Store)
      (fields : List Field) (pre : Bytes), WellFormed fields → pre <+: stream fields →
        pre ≠ stream fields →
        (processRequest (posix cwd) allocated locals ⟨received pre, address⟩ s).2 = s := by
  intro h
  let fields : List Field := [⟨Command.register, nul, by decide, by decide⟩,
    ⟨cstring "alice", nul, by decide, by decide⟩]
  have hsame := h [] true .zeros none (initP2pService (posix []) .empty) fields
    (cstring "REGISTER\x00al") ⟨_, _, rfl, by decide⟩ (by decide) (by decide)
  exact absurd hsame (by decide)

end DistributedSystems.Lab
