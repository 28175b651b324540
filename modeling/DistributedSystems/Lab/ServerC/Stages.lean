import DistributedSystems.Lab.ServerC.Preemptive

/-!
# Stages of the handlers

What a handler can be about to do when other threads run. `Stage` names the calls that a property of
the concurrent server turns on, each with what the handler does with its answer. All other calls
lead to no SUCCESS of a REGISTER or a PUBLISH, to no listing, to no write and to no second reading
of the list or of a directory, and those of a REGISTER or a PUBLISH change nothing. Every call of
every handler is at one of the stages (`always_program`).
-/

namespace DistributedSystems.Lab.Preemptive

open Fs Support

/-- The operation makes an entry of the tree. -/
def Connection.Creates (k : Connection) : Prop :=
  (∃ u, k.operation = .change (.register u)) ∨ ∃ u f d, k.operation = .change (.publish u f d)

def Call.writes : Call → Bool
  | .write _ _ => true
  | _ => false

/-- The call is no write, and no second reading of the list or of a directory. -/
def Call.plain : Call → Bool
  | .write _ _ => false
  | .listGetSize => false
  | .sendFiles _ => false
  | _ => true

/-- A plain call writes nothing. -/
theorem Call.writes_of_plain {a : Call} (h : a.plain = true) : a.writes = false := by
  cases a <;> first | rfl | cases h

/-- The call leaves everything as it is. -/
def Call.reads : Call → Bool
  | .addElement _ => false
  | .deleteElement _ => false
  | .mkdir _ => false
  | .unlink _ => false
  | .rmdir _ => false
  | .openCreate _ => false
  | .write _ _ => false
  | .remove _ => false
  | _ => true

/-- A call that only reads leaves the machine as it is. -/
theorem perform_reads {cwd : Pos} {env : Conditions} {a : Call} (ha : a.reads = true)
    (m : Machine) : (perform cwd env a m).2 = m := by
  cases a <;> first | rfl | cases ha

/-- What is left of the handler is a status, which is no SUCCESS of an operation that creates, or
begins with a call that is plain. -/
structure Ordinary (k : Connection) (rest : Handler) : Prop where
  status : ∀ o, rest.result? = some o →
    ∃ output, o = .status output ∧ (k.Creates → output ≠ success)
  plain : ∀ a, rest.action? = some a → a.plain = true

inductive Stage (k : Connection) : (a : Call) → (a.Answer → Handler) → Prop
  | making {u : Line} (hk : k.operation = .change (.register u)) :
    Stage k (.mkdir (userPath u.text)) registerUser.made
  | opening {u f d : Line} (hk : k.operation = .change (.publish u f d)) :
    Stage k (.openCreate (filePath u f)) (publishFile.opened d)
  | writing {u f d : Line} (hk : k.operation = .change (.publish u f d)) (file : Descriptor) :
    Stage k (.write file (description d)) publishFile.written
  | taking : Stage k .getElements listUsers.taken
  | sizing (users : List UserServerData) : Stage k .listGetSize (listUsers.sized users)
  | counting (directory : Descriptor) :
    Stage k (.countFiles directory) fun numberFiles =>
      .call (.sendFiles directory) (listContent.sent numberFiles)
  | sending (directory : Descriptor) (numberFiles : Nat) :
    Stage k (.sendFiles directory) (listContent.sent numberFiles)
  | other {a : Call} {next : a.Answer → Handler} (ha : a.plain = true)
    (hr : k.Creates → a.reads = true) (h : ∀ x, Ordinary k (next x)) : Stage k a next

variable {k : Connection}

/-- A return, which is no SUCCESS of an operation that creates. -/
theorem Ordinary.return {output : Int} (h : k.Creates → output ≠ success) :
    Ordinary k (returnStatus output) where
  status _ ho := ⟨output, (Option.some.inj ho).symm, h⟩
  plain _ ha := nomatch ha

/-- A handler that begins with a plain call, whatever follows it. -/
theorem Ordinary.call {a : Call} {next : a.Answer → Handler} (ha : a.plain = true) :
    Ordinary k (.call a next) where
  status _ ho := nomatch ho
  plain _ hb := Option.some.inj hb ▸ ha

theorem Ordinary.no_write {rest : Handler} (h : Ordinary k rest) (a : Call)
    (ha : rest.action? = some a) : a.writes = false :=
  Call.writes_of_plain (h.plain a ha)

/-- The rest of a handler is ordinary, and every call in it is at one of the stages. -/
structure Staged (k : Connection) (rest : Handler) : Prop where
  ordinary : Ordinary k rest
  always : rest.Always (Stage k)

theorem Staged.return {output : Int} (h : k.Creates → output ≠ success) :
    Staged k (returnStatus output) := ⟨.return h, trivial⟩

/-- A plain call, which for a request that creates only reads. -/
theorem Staged.call {a : Call} {next : a.Answer → Handler} (ha : a.plain = true)
    (hr : k.Creates → a.reads = true) (h : ∀ x, Staged k (next x)) : Staged k (.call a next) :=
  ⟨.call ha, .other ha hr fun x => (h x).ordinary, fun x => (h x).always⟩

/-! ## Operations that create -/

/-- A REGISTER comes to `mkdir` after a read, and ends with it. -/
theorem registerUser.staged {u : Line} (hk : k.operation = .change (.register u)) :
    Staged k (registerUser u.text) := by
  refine .call rfl (fun _ => rfl) fun (registered : Int) => ?_
  unfold registerUser.checked
  split_ifs
  · refine ⟨.call rfl, .making hk, fun (made : Int) => ?_⟩
    unfold registerUser.made
    split <;> trivial
  · exact .return fun _ => by decide
  · exact .return fun _ => by decide

/-- A PUBLISH comes to its `open` after reads alone, and then to its `write`. -/
theorem publishFile.staged {u f d : Line} (hk : k.operation = .change (.publish u f d)) :
    Staged k (publishFile u f d) := by
  refine .call rfl (fun _ => rfl) fun (registered : Int) => ?_
  unfold publishFile.checked
  split_ifs
  · refine .call rfl (fun _ => rfl) fun (connected : Int) => ?_
    unfold publishFile.connected
    split
    · refine .call rfl (fun _ => rfl) fun (file : Int) => ?_
      unfold publishFile.searched
      split_ifs
      · refine ⟨.call rfl, .opening hk, fun (opened : Option Descriptor) => ?_⟩
        cases opened with
        | none => trivial
        | some file =>
          refine ⟨.writing hk file, fun (written : Int) => ?_⟩
          unfold publishFile.written
          split <;> trivial
      · exact .return fun _ => by decide
      · exact .return fun _ => by decide
    · exact .return fun _ => by decide
  · exact .return fun _ => by decide

/-! ## Removal

What holds of the five calls of a removal holds of all that it does. -/

section Removal

variable {Q : Call → Prop} {recurse : Bytes → Part}

/-- What holds of the calls of a removal and of its recursion holds of one turn of the loop. -/
theorem removeEntry_always (hmalloc : ∀ path, Q (.malloc path)) (hstat : ∀ path, Q (.stat path))
    (hunlink : ∀ path, Q (.unlink path)) (h : ∀ path, (recurse path).Always fun a _ => Q a)
    (buf : Bytes) : (removeEntry recurse buf).Always fun a _ => Q a := by
  refine ⟨hmalloc buf, fun (allocated : Bool) => ?_⟩
  cases allocated with
  | false => trivial
  | true =>
    refine ⟨hstat buf, fun (entry : Option Entry) => ?_⟩
    cases entry with
    | none => trivial
    | some e =>
      cases e with
      | dir => exact h buf
      | file old => exact ⟨hunlink buf, fun _ => trivial⟩

/-- And so of the whole loop. -/
theorem removeEntries_always (hentry : ∀ buf, (removeEntry recurse buf).Always fun a _ => Q a)
    (path : Bytes) (entries : List Bytes) :
    (removeEntries recurse path entries).Always fun a _ => Q a := by
  induction entries with
  | nil => trivial
  | cons dName rest ih =>
    unfold removeEntries
    split
    · exact ih
    · refine Program.always_bind (hentry _) fun r => ?_
      split
      · exact ih
      · trivial

/-- And so of the recursion, by the depth. -/
theorem removeDirectory_always (hmalloc : ∀ path, Q (.malloc path))
    (hstat : ∀ path, Q (.stat path)) (hunlink : ∀ path, Q (.unlink path))
    (hopendir : ∀ path, Q (.opendir path)) (hrmdir : ∀ path, Q (.rmdir path)) (depth : Nat)
    (path : Bytes) : (removeDirectory depth path).Always fun a _ => Q a := by
  induction depth generalizing path with
  | zero => trivial
  | succ depth ih =>
    unfold removeDirectory
    refine ⟨hopendir path, fun (entries : Option (List Bytes)) => ?_⟩
    cases entries with
    | none => trivial
    | some entries =>
      have hentry := removeEntry_always hmalloc hstat hunlink ih
      refine Program.always_bind (removeEntries_always hentry path entries) fun r => ?_
      split
      · exact ⟨hrmdir path, fun _ => trivial⟩
      · trivial

end Removal

/-- Every call of the part is plain. -/
def Part.Plain (part : Part) : Prop := part.Always fun a _ => a.plain = true

/-- A removal writes to no file, whatever it is a part of. -/
theorem removeDirectory_plain (depth : Nat) (path : Bytes) :
    (removeDirectory depth path).Plain :=
  removeDirectory_always (fun _ => rfl) (fun _ => rfl) (fun _ => rfl) (fun _ => rfl)
    (fun _ => rfl) depth path

/-! ## Operations that create nothing -/

section NotCreates

variable (hk : ¬ k.Creates)

include hk

/-- Any status may end them. -/
theorem Staged.of_not_creates (output : Int) : Staged k (returnStatus output) :=
  .return fun h => absurd h hk

/-- A request that creates nothing may make any plain call. -/
theorem Staged.call_of_not_creates {a : Call} {next : a.Answer → Handler}
    (ha : a.plain = true) (h : ∀ x, Staged k (next x)) : Staged k (.call a next) :=
  .call ha (fun hcreates => absurd hcreates hk) h

/-- A handler that goes on from the result of a part. -/
theorem Part.Plain.staged {part : Part} {r : Int → Handler} (h : part.Plain)
    (hr : ∀ x, Staged k (r x)) : Staged k (part.bind r) := by
  induction part with
  | done x => exact hr x
  | call a next ih => exact .call_of_not_creates hk h.1 fun x => ih x (h.2 x)

theorem unregisterUser.staged (depth : Nat) (u : Bytes) : Staged k (unregisterUser depth u) := by
  refine .call_of_not_creates hk rfl fun (registered : Int) => ?_
  unfold unregisterUser.checked
  split_ifs
  · refine (removeDirectory_plain depth _).staged hk fun removed => ?_
    unfold unregisterUser.removed
    split
    · exact .of_not_creates hk _
    · exact .call_of_not_creates hk rfl fun _ => .of_not_creates hk _
  · exact .of_not_creates hk _
  · exact .of_not_creates hk _

theorem connectUser.staged (address : Option Bytes) (u port : Bytes) :
    Staged k (connectUser address u port) := by
  refine .call_of_not_creates hk rfl fun (registered : Int) => ?_
  unfold connectUser.checked
  split_ifs
  · refine .call_of_not_creates hk rfl fun (connected : Int) => ?_
    unfold connectUser.searched
    split
    · exact .of_not_creates hk _
    · cases address with
      | none => exact .of_not_creates hk _
      | some clientAddress => exact .call_of_not_creates hk rfl fun _ => .of_not_creates hk _
  · exact .of_not_creates hk _
  · exact .of_not_creates hk _

theorem disconnectUser.staged (u : Bytes) : Staged k (disconnectUser u) := by
  refine .call_of_not_creates hk rfl fun (registered : Int) => ?_
  unfold disconnectUser.checked
  split_ifs
  · refine .call_of_not_creates hk rfl fun (connected : Int) => ?_
    unfold disconnectUser.searched
    split
    · exact .call_of_not_creates hk rfl fun _ => .of_not_creates hk _
    · exact .of_not_creates hk _
  · exact .of_not_creates hk _
  · exact .of_not_creates hk _

theorem deleteFile.staged (u f : Line) : Staged k (deleteFile u f) := by
  refine .call_of_not_creates hk rfl fun (file : Int) => ?_
  unfold deleteFile.searched
  split_ifs
  · refine .call_of_not_creates hk rfl fun (removed : Int) => ?_
    unfold deleteFile.removed
    split
    · exact .of_not_creates hk _
    · exact .of_not_creates hk _
  · exact .of_not_creates hk _
  · exact .of_not_creates hk _

omit hk in
theorem listUsers.staged : Staged k listUsers := by
  refine ⟨.call rfl, .taking, fun (users : Option (List UserServerData)) => ?_⟩
  cases users with
  | none => trivial
  | some users => exact ⟨.sizing users, fun _ => trivial⟩

theorem listContent.staged (u : Bytes) : Staged k (listContent u) := by
  refine .call_of_not_creates hk rfl fun (registered : Int) => ?_
  unfold listContent.checked
  split
  · refine .call_of_not_creates hk rfl fun (opened : Option Descriptor) => ?_
    cases opened with
    | none => exact .of_not_creates hk _
    | some directory =>
      exact ⟨.call rfl, .counting directory,
        fun (numberFiles : Nat) => ⟨.sending directory numberFiles, fun _ => trivial⟩⟩
  · exact .of_not_creates hk _

end NotCreates

/-! ## All handlers -/

/-- Every program starts at a stage. -/
theorem staged_program (depth : Nat) (k : Connection) : Staged k (k.program depth) := by
  obtain ⟨operation, address⟩ := k
  cases operation with
  | change r =>
    have hnot : (∀ u, r ≠ .register u) → (∀ u f d, r ≠ .publish u f d) →
        ¬ (⟨.change r, address⟩ : Connection).Creates := by
      rintro hr hp (⟨u, hu⟩ | ⟨u, f, d, hu⟩)
      · exact hr u (Operation.change.inj hu)
      · exact hp u f d (Operation.change.inj hu)
    cases r with
    | register u => exact registerUser.staged rfl
    | unregister u => exact unregisterUser.staged (hnot nofun nofun) depth u.text
    | connect u port => exact connectUser.staged (hnot nofun nofun) address u.text port.text
    | disconnect u => exact disconnectUser.staged (hnot nofun nofun) u.text
    | publish u f d => exact publishFile.staged rfl
    | delete u f => exact deleteFile.staged (hnot nofun nofun) u f
  | listUsers _ => exact listUsers.staged
  | listContent _ u =>
    exact listContent.staged (by rintro (⟨_, h⟩ | ⟨_, _, _, h⟩) <;> cases h) u.text

/-- **Every call of every handler is at one of the stages.** -/
theorem always_program (depth : Nat) (k : Connection) : (k.program depth).Always (Stage k) :=
  (staged_program depth k).always

/-- A move keeps all threads at stages. -/
theorem always_move {cwd : Pos} {depth : Nat} {p : ServerPool} (h : p.Always Stage)
    (m : ServerMove) : ((server cwd depth).move p m).Always Stage :=
  (server cwd depth).always_move p (fun k _ => always_program depth k) h

end DistributedSystems.Lab.Preemptive
