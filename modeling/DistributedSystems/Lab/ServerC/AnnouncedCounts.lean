import DistributedSystems.Lab.ServerC.Stages
import Mathlib.Algebra.GroupWithZero.Nat

/-!
# Announced counts

LIST_USERS copies the list and then asks for its size, LIST_CONTENT counts the files and then sends
their names, and other threads run in between. All replies of a run are exact if and only if
between the two readings of every listing the other threads add as many records to the list, or
names to the open directory, as they take away (`replies_exact_iff`). `connected_in_between` is a
run in which one is added.
-/

namespace DistributedSystems.Lab.Preemptive

open Fs Support

/-- A listing announces the number of its records or names, and sends these. -/
def Outcome.Exact : Outcome → Prop
  | .status _ => True
  | .users snapshot announced sent => announced = snapshot.length ∧ sent = snapshot.map some
  | .content announced sent => announced = sent.length

instance : DecidablePred Outcome.Exact
  | .status _ => inferInstanceAs (Decidable True)
  | .users _ _ _ => inferInstanceAs (Decidable (_ ∧ _))
  | .content _ _ => inferInstanceAs (Decidable (_ = _))

/-- If the thread is about to ask for the size of the list, it has as many records as there are in
the snapshot, and if it is about to send the names of files, there are as many as it has counted. -/
def Thread.Undisturbed (m : Machine) (t : Thread Connection Call.Answer Outcome) : Prop :=
  (∀ users, t.rest = .call .listGetSize (listUsers.sized users) →
    m.store.connected.length = users.length) ∧
  ∀ directory numberFiles, t.rest = .call (.sendFiles directory) (listContent.sent numberFiles) →
    (m.filesIn directory).length = numberFiles

/-- The thread that runs finds as many records or files as before. -/
def Undisturbed (p : ServerPool) : ServerMove → Prop
  | .spawn _ => True
  | .run i _ => ∀ t ∈ p.threads[i]?, Thread.Undisturbed p.shared t

/-! ## What the other threads do -/

/-- How many records the move adds to the list. -/
def recordsAdded (x : ServerPool × ServerMove) : Nat :=
  match System.called x.1 x.2 with
  | some (_, .addElement _) => 1
  | _ => 0

/-- How many records the move takes from the list. -/
def recordsDropped (x : ServerPool × ServerMove) : Nat :=
  match System.called x.1 x.2 with
  | some (_, .deleteElement u) =>
    if findElementByname x.1.shared.store.connected u ≠ 0 then 1 else 0
  | _ => 0

/-- How many names the move brings to an open directory. -/
def filesMade (cwd : Pos) (depth : Nat) (directory : Descriptor) (x : ServerPool × ServerMove) :
    Nat :=
  ((((server cwd depth).move x.1 x.2).shared.filesIn directory).removeAll
    (x.1.shared.filesIn directory)).length

/-- How many names the move takes from an open directory. -/
def filesGone (cwd : Pos) (depth : Nat) (directory : Descriptor) (x : ServerPool × ServerMove) :
    Nat :=
  ((x.1.shared.filesIn directory).removeAll
    (((server cwd depth).move x.1 x.2).shared.filesIn directory)).length

/-- Between the two readings of a listing, the second of which is this call, as many records are
added to the list as are taken away, or as many names brought to the directory. `since` is what has
been done since the thread took one of the calls picked. -/
def Call.Balanced (cwd : Pos) (depth : Nat)
    (since : (Call → Bool) → List (ServerPool × ServerMove)) : Call → Prop
  | .listGetSize =>
    ((since (· = .getElements)).map recordsAdded).sum =
      ((since (· = .getElements)).map recordsDropped).sum
  | .sendFiles directory =>
    ((since (· = .countFiles directory)).map (filesMade cwd depth directory)).sum =
      ((since (· = .countFiles directory)).map (filesGone cwd depth directory)).sum
  | _ => True

instance (cwd : Pos) (depth : Nat) (since : (Call → Bool) → List (ServerPool × ServerMove)) :
    DecidablePred (Call.Balanced cwd depth since)
  | .listGetSize => inferInstanceAs (Decidable (_ = _))
  | .sendFiles _ => inferInstanceAs (Decidable (_ = _))
  | .isusrRegistered _ | .findElementByname _ | .addElement _ | .deleteElement _ | .getElements
  | .mkdir _ | .opendir _ | .malloc _ | .stat _ | .unlink _ | .rmdir _ | .fileExists _ _
  | .openCreate _ | .write _ _ | .remove _ | .openDirectory _ | .countFiles _ =>
    inferInstanceAs (Decidable True)

/-- When a LIST_USERS asks for the size of the list, the other threads have added as many records
since it copied the list as they have taken away; and when a LIST_CONTENT sends its names, they have
brought as many names to the directory since it counted them as they have taken away. -/
def Balanced (cwd : Pos) (depth : Nat) (earlier : List (ServerPool × ServerMove))
    (p : ServerPool) : ServerMove → Prop
  | .spawn _ => True
  | .run i env => ∀ c ∈ System.called p (.run i env),
      c.2.Balanced cwd depth fun picks => System.sinceCall i picks earlier

instance (cwd : Pos) (depth : Nat) (earlier : List (ServerPool × ServerMove)) (p : ServerPool) :
    DecidablePred (Balanced cwd depth earlier p)
  | .spawn _ => inferInstanceAs (Decidable True)
  | .run _ _ => inferInstanceAs (Decidable (∀ _ ∈ _, _))

theorem exact_sized (users : List UserServerData) (n : Nat) :
    (Outcome.users users n ((List.range n).map fun ii => users[ii]?)).Exact ↔
      n = users.length := by
  constructor
  · intro h
    exact h.1
  · rintro rfl
    exact ⟨rfl, range_map_getElem? users⟩

theorem sized_inj {users users' : List UserServerData}
    (h : listUsers.sized users = listUsers.sized users') : users = users' := by
  have hdone := congrFun h 0
  exact (Outcome.users.inj (Program.done.inj hdone)).1

theorem sent_inj {n n' : Nat} (h : listContent.sent n = listContent.sent n') : n = n' := by
  have hdone := congrFun h []
  exact (Outcome.content.inj (Program.done.inj hdone)).1

section Readings

variable {m : Machine} {k : Connection}

/-- The size of the list is undisturbed if it is the size of the snapshot. -/
theorem undisturbed_sizing {users : List UserServerData} :
    Thread.Undisturbed m ⟨k, .call .listGetSize (listUsers.sized users)⟩ ↔
      m.store.connected.length = users.length := by
  constructor
  · intro h
    exact h.1 users rfl
  · intro hlen
    refine ⟨fun users' hcall => ?_, fun _ _ hcall => by cases hcall⟩
    obtain rfl := sized_inj (eq_of_heq (Program.call.inj hcall).2)
    exact hlen

/-- The names of a directory are undisturbed if there are as many as counted. -/
theorem undisturbed_sending {directory : Descriptor} {n : Nat} :
    Thread.Undisturbed m ⟨k, .call (.sendFiles directory) (listContent.sent n)⟩ ↔
      (m.filesIn directory).length = n := by
  constructor
  · intro h
    exact h.2 directory n rfl
  · intro hlen
    refine ⟨fun _ hcall => (by cases hcall), fun d n' hcall => ?_⟩
    obtain ⟨hd, hnext⟩ := Program.call.inj hcall
    obtain rfl := Call.sendFiles.inj hd
    obtain rfl := sent_inj (eq_of_heq hnext)
    exact hlen

/-- A thread that is not in front of a second reading is undisturbed. -/
theorem undisturbed_of_not_second {a : Call} {next : a.Answer → Handler}
    (hsize : a ≠ .listGetSize) (hsend : ∀ directory, a ≠ .sendFiles directory) :
    Thread.Undisturbed m ⟨k, .call a next⟩ := by
  refine ⟨fun users hcall => ?_, fun directory n hcall => ?_⟩
  · exact absurd (Program.call.inj hcall).1 hsize
  · exact absurd (Program.call.inj hcall).1 (hsend directory)

end Readings

/-- A call that is plain is no second reading, so there is nothing to balance. -/
theorem Call.balanced_of_plain {cwd : Pos} {depth : Nat}
    {since : (Call → Bool) → List (ServerPool × ServerMove)} {a : Call} (h : a.plain = true) :
    a.Balanced cwd depth since := by
  cases a <;> trivial

/-- A rest that can only end with a status. -/
def EndsWithStatus (rest : Handler) : Prop :=
  ∀ o, rest.result? = some o → ∃ output, o = .status output

theorem endsWithStatus_return (output : Int) : EndsWithStatus (returnStatus output) :=
  fun _ ho => ⟨output, (Option.some.inj ho).symm⟩

theorem endsWithStatus_call {a : Call} (next : a.Answer → Handler) :
    EndsWithStatus (.call a next) := by
  intro o ho
  cases ho

/-- A thread whose next call leads to a status, if to anything, is no listing. -/
theorem exact_of_endsWithStatus {m : Machine} {k : Connection} {a : Call}
    {next : a.Answer → Handler} (h : ∀ x, EndsWithStatus (next x)) (x : a.Answer) :
    (∀ o, (next x).result? = some o → o.Exact) ↔ Thread.Undisturbed m ⟨k, .call a next⟩ := by
  refine iff_of_true (fun o ho => ?_) ⟨fun users hcall => ?_, fun directory n hcall => ?_⟩
  · obtain ⟨output, rfl⟩ := h x o ho
    trivial
  · obtain ⟨rfl, hnext⟩ := Program.call.inj hcall
    obtain rfl := eq_of_heq hnext
    obtain ⟨output, ho⟩ := h (0 : Nat) _ rfl
    cases ho
  · obtain ⟨rfl, hnext⟩ := Program.call.inj hcall
    obtain rfl := eq_of_heq hnext
    obtain ⟨output, ho⟩ := h ([] : List Bytes) _ rfl
    cases ho

/-- What a thread in front of a call answers is exact if and only if it is undisturbed. -/
theorem exact_iff_undisturbed {cwd : Pos} {env : Conditions} {m : Machine} {k : Connection}
    {a : Call} {next : a.Answer → Handler} (h : Stage k a next) :
    (∀ o, (next (perform cwd env a m).1).result? = some o → o.Exact) ↔
      Thread.Undisturbed m ⟨k, .call a next⟩ := by
  cases h with
  | taking =>
    refine exact_of_endsWithStatus (fun (users : Option (List UserServerData)) => ?_) _
    cases users with
    | none => exact endsWithStatus_return _
    | some users => exact endsWithStatus_call _
  | counting directory => exact exact_of_endsWithStatus (fun _ => endsWithStatus_call _) _
  | sizing users =>
    have hexact : (∀ o, (listUsers.sized users m.store.connected.length).result? = some o →
        o.Exact) ↔ m.store.connected.length = users.length := by
      rw [← exact_sized]
      exact ⟨fun h => h _ rfl, fun h o ho => Option.some.inj ho ▸ h⟩
    exact hexact.trans undisturbed_sizing.symm
  | sending directory n =>
    have hexact : (∀ o, (listContent.sent n (m.filesIn directory)).result? = some o → o.Exact) ↔
        (m.filesIn directory).length = n := by
      constructor
      · intro h
        exact (h _ rfl).symm
      · intro h o ho
        exact Option.some.inj ho ▸ h.symm
    exact hexact.trans undisturbed_sending.symm
  | making hk =>
    refine exact_of_endsWithStatus (fun (made : Int) => ?_) _
    unfold registerUser.made
    split
    · exact endsWithStatus_return _
    · exact endsWithStatus_return _
  | opening hk =>
    refine exact_of_endsWithStatus (fun (opened : Option Descriptor) => ?_) _
    cases opened with
    | none => exact endsWithStatus_return _
    | some file => exact endsWithStatus_call _
  | writing hk file =>
    refine exact_of_endsWithStatus (fun (written : Int) => ?_) _
    unfold publishFile.written
    split
    · exact endsWithStatus_return _
    · exact endsWithStatus_return _
  | other _ _ hother =>
    refine exact_of_endsWithStatus (fun x o ho => ?_) _
    obtain ⟨output, hstatus, -⟩ := (hother x).status o ho
    exact ⟨output, hstatus⟩

/-- What a move answers is exact if and only if it is undisturbed. -/
theorem returned_exact_iff {cwd : Pos} {depth : Nat} {p : ServerPool} (h : p.Always Stage)
    (m : ServerMove) :
    (∀ r ∈ (server cwd depth).returned p m, r.2.Exact) ↔ Undisturbed p m := by
  cases m with
  | spawn k => exact iff_of_true (fun r hr => by cases hr) trivial
  | run i env =>
    cases ht : p.threads[i]? with
    | none =>
      have hret : (server cwd depth).returned p (.run i env) = none := by
        simp only [System.returned, ht]
      simp [Undisturbed, hret, ht]
    | some t =>
      obtain ⟨k, rest⟩ := t
      cases rest with
      | done o =>
        have hret : (server cwd depth).returned p (.run i env) = none := by
          simp only [System.returned, ht]
        simp [Undisturbed, Thread.Undisturbed, hret, ht]
      | call a next =>
        have hret : (server cwd depth).returned p (.run i env) =
            (next (perform cwd env a p.shared).1).result?.map (k, ·) := by
          simp only [System.returned, ht]
          rfl
        have hstage : Stage k a next := (h _ (List.mem_of_getElem? ht)).1
        have hexact : (∀ o, (next (perform cwd env a p.shared).1).result? = some o → o.Exact) ↔
            Thread.Undisturbed p.shared ⟨k, .call a next⟩ :=
          exact_iff_undisturbed hstage
        simpa [Undisturbed, hret, ht] using hexact

/-! ## Between the two readings -/

/-- Of two lists without duplicates, what one has more than the other balances what it has less. -/
theorem length_add_removeAll {α : Type} [BEq α] [LawfulBEq α] {l l' : List α} (h : l.Nodup)
    (h' : l'.Nodup) : l'.length + (l.removeAll l').length = l.length + (l'.removeAll l).length := by
  have hcommon : (l.filter (l'.elem ·)).length = (l'.filter (l.elem ·)).length := by
    refine ((List.perm_ext_iff_of_nodup (h.filter _) (h'.filter _)).2 fun x => ?_).length_eq
    simp [and_comm]
  have hl := List.length_eq_length_filter_add (l'.elem ·) (l := l)
  have hl' := List.length_eq_length_filter_add (l.elem ·) (l := l')
  unfold List.removeAll
  omega

theorem nodup_filesIn (m : Machine) (directory : Descriptor) : (m.filesIn directory).Nodup := by
  unfold Machine.filesIn
  split
  · have hnames : fileNames (listing m.store.tree directory.pos) =
        fileNames (m.store.tree.names directory.pos) := rfl
    rw [hnames]
    exact (Tree.names_nodup _ _).filter _
  · exact List.nodup_nil

/-- The names in an open directory, over one move. -/
theorem filesIn_move (cwd : Pos) (depth : Nat) (p : ServerPool) (m : ServerMove)
    (directory : Descriptor) :
    (((server cwd depth).move p m).shared.filesIn directory).length +
        filesGone cwd depth directory (p, m) =
      (p.shared.filesIn directory).length + filesMade cwd depth directory (p, m) := by
  unfold filesGone filesMade
  exact length_add_removeAll (nodup_filesIn _ _) (nodup_filesIn _ _)

/-- The records of the list, over one move. -/
theorem connected_move (cwd : Pos) (depth : Nat) (p : ServerPool) (m : ServerMove) :
    ((server cwd depth).move p m).shared.store.connected.length + recordsDropped (p, m) =
      p.shared.store.connected.length + recordsAdded (p, m) := by
  have hm := (server cwd depth).moved p m
  generalize (server cwd depth).move p m = p' at hm
  cases hm with
  | spawned r => simp [recordsAdded, recordsDropped, System.called]
  | idle i env hc => simp [recordsAdded, recordsDropped, hc]
  | @called env before after r a next ht hc hr =>
    have hquiet : (∀ d, a ≠ .addElement d) → (∀ u, a ≠ .deleteElement u) →
        ((server cwd depth).exec env a p.shared).2.store.connected = p.shared.store.connected :=
      fun hadd hdelete => connected_perform hadd hdelete p.shared
    cases a with
    | addElement d =>
      simp [recordsAdded, recordsDropped, hc, server, perform, Machine.withConnected, addElement]
    | deleteElement u =>
      simp only [recordsAdded, recordsDropped, hc, server, perform, Machine.withConnected]
      split
      · rename_i hfound
        exact length_deleteElement (findElementByname_ne_zero_iff.1 hfound)
      · rename_i hfound
        rw [deleteElement_of_notMem (findElementByname_ne_zero_iff.not.1 hfound)]
    | _ =>
      rw [hquiet (by simp) (by simp)]
      simp [recordsAdded, recordsDropped, hc]

/-- A call that leads to a second reading is the first one. -/
theorem Stage.first {k : Connection} {a : Call} {next : a.Answer → Handler} (h : Stage k a next)
    {x : a.Answer} {b : Call} (hx : (next x).action? = some b) (hb : b.writes = false)
    (hplain : b.plain = false) :
    (∃ users, (⟨a, x⟩ : (a : Call) × a.Answer) = ⟨.getElements, some users⟩ ∧
      next x = .call .listGetSize (listUsers.sized users)) ∨
    ∃ directory n, (⟨a, x⟩ : (a : Call) × a.Answer) = ⟨.countFiles directory, n⟩ ∧
      next x = .call (.sendFiles directory) (listContent.sent n) := by
  cases h with
  | making hk =>
    simp only [registerUser.made] at hx
    split at hx <;> cases hx
  | opening hk =>
    cases x with
    | none => cases hx
    | some file => cases hx; cases hb
  | writing hk file =>
    simp only [publishFile.written] at hx
    split at hx <;> cases hx
  | taking =>
    cases x with
    | none => cases hx
    | some users => exact Or.inl ⟨users, rfl, rfl⟩
  | sizing users => cases hx
  | counting directory => exact Or.inr ⟨directory, x, rfl, rfl⟩
  | sending directory n => cases hx
  | other _ _ hother =>
    rw [(hother x).plain b hx] at hplain
    cases hplain

/-- The invariant of a thread between its two readings: what it has read differs from what is there
by what the other threads have done since. -/
structure Reads (cwd : Pos) (depth : Nat) (steps : List (ServerPool × ServerMove))
    (p : ServerPool) : Prop where
  always : p.Always Stage
  records : ∀ i t users, p.threads[i]? = some t →
    t.rest = .call .listGetSize (listUsers.sized users) →
      p.shared.store.connected.length +
          ((System.sinceCall i (· = .getElements) steps).map recordsDropped).sum =
        users.length + ((System.sinceCall i (· = .getElements) steps).map recordsAdded).sum
  files : ∀ i t directory n, p.threads[i]? = some t →
    t.rest = .call (.sendFiles directory) (listContent.sent n) →
      (p.shared.filesIn directory).length +
          ((System.sinceCall i (· = .countFiles directory) steps).map
            (filesGone cwd depth directory)).sum =
        n + ((System.sinceCall i (· = .countFiles directory) steps).map
          (filesMade cwd depth directory)).sum

/-- No handler starts with a second reading. -/
theorem plain_of_start {depth : Nat} {k : Connection} {b : Call}
    (h : (k.program depth).action? = some b) : b.plain = true :=
  (staged_program depth k).ordinary.plain b h

namespace Reads

variable {cwd : Pos} {depth : Nat} {steps : List (ServerPool × ServerMove)} {p : ServerPool}
  {m : ServerMove}

/-- What has come and gone since a call of a thread still balances after a move in which the thread
does not take the call again. -/
theorem balance_snoc {i : Nat} {picks : Call → Bool} {gone made : ServerPool × ServerMove → Nat}
    {x y n : Nat} (hcalls : System.calls i picks p m = false)
    (hmove : y + gone (p, m) = x + made (p, m))
    (h : x + ((System.sinceCall i picks steps).map gone).sum =
      n + ((System.sinceCall i picks steps).map made).sum) :
    y + ((System.sinceCall i picks (steps ++ [(p, m)])).map gone).sum =
      n + ((System.sinceCall i picks (steps ++ [(p, m)])).map made).sum := by
  rw [System.sinceCall_snoc hcalls]
  simp only [List.map_append, List.sum_append, List.map_singleton, List.sum_singleton]
  omega

theorem init (m : Machine) : Reads cwd depth [] (initialPool m) where
  always := fun _ ht => absurd ht List.not_mem_nil
  records := fun _ _ _ ht => by cases ht
  files := fun _ _ _ _ ht => by cases ht

theorem records_move (h : Reads cwd depth steps p) {i : Nat}
    {t : Thread Connection Call.Answer Outcome} {users : List UserServerData}
    (hafter : ((server cwd depth).move p m).threads[i]? = some t)
    (hrest : t.rest = .call .listGetSize (listUsers.sized users)) :
    ((server cwd depth).move p m).shared.store.connected.length +
        ((System.sinceCall i (· = .getElements) (steps ++ [(p, m)])).map recordsDropped).sum =
      users.length +
        ((System.sinceCall i (· = .getElements) (steps ++ [(p, m)])).map recordsAdded).sum := by
  cases (server cwd depth).came p hafter with
  | stayed ht hm =>
    have hmove := connected_move cwd depth p m
    exact balance_snoc (System.calls_eq_false_of_stayed hm) hmove (h.records i t users ht hrest)
  | started k =>
    have hplain := plain_of_start (congrArg Program.action? hrest)
    cases hplain
  | @called env k a next ht hc =>
    have hstage : Stage k a next := by
      have halways := h.always _ (List.mem_of_getElem? ht)
      exact halways.1
    obtain ⟨users', heq, hnext⟩ | ⟨directory, n, -, hnext⟩ :=
      hstage.first (congrArg Program.action? hrest) rfl rfl
    · obtain ⟨rfl, hx⟩ := Sigma.mk.inj heq
      obtain rfl := sized_inj (eq_of_heq (Program.call.inj (hrest.symm.trans hnext)).2)
      have hx : (if env.allocated then some (getElements p.shared.store.connected) else none) =
          some users := eq_of_heq hx
      have husers : users = p.shared.store.connected := by
        split at hx
        · exact (Option.some.inj hx).symm
        · cases hx
      rw [System.sinceCall_snoc_of_picked hc (decide_eq_true rfl), System.shared_move _ _ ht,
        husers]
      rfl
    · cases hrest.symm.trans hnext

theorem files_move (h : Reads cwd depth steps p) {i : Nat}
    {t : Thread Connection Call.Answer Outcome} {directory : Descriptor} {n : Nat}
    (hafter : ((server cwd depth).move p m).threads[i]? = some t)
    (hrest : t.rest = .call (.sendFiles directory) (listContent.sent n)) :
    (((server cwd depth).move p m).shared.filesIn directory).length +
        ((System.sinceCall i (· = .countFiles directory) (steps ++ [(p, m)])).map
          (filesGone cwd depth directory)).sum =
      n + ((System.sinceCall i (· = .countFiles directory) (steps ++ [(p, m)])).map
        (filesMade cwd depth directory)).sum := by
  cases (server cwd depth).came p hafter with
  | stayed ht hm =>
    have hmove := filesIn_move cwd depth p m directory
    exact balance_snoc (System.calls_eq_false_of_stayed hm) hmove (h.files i t directory n ht hrest)
  | started k =>
    have hplain := plain_of_start (congrArg Program.action? hrest)
    cases hplain
  | @called env k a next ht hc =>
    have hstage : Stage k a next := by
      have halways := h.always _ (List.mem_of_getElem? ht)
      exact halways.1
    obtain ⟨users, -, hnext⟩ | ⟨directory', n', heq, hnext⟩ :=
      hstage.first (congrArg Program.action? hrest) rfl rfl
    · cases hrest.symm.trans hnext
    · obtain ⟨rfl, hx⟩ := Sigma.mk.inj heq
      obtain ⟨hd, hlast⟩ := Program.call.inj (hrest.symm.trans hnext)
      obtain rfl := Call.sendFiles.inj hd
      obtain rfl := sent_inj (eq_of_heq hlast)
      have hx : (p.shared.filesIn directory).length = n := eq_of_heq hx
      rw [System.sinceCall_snoc_of_picked hc (decide_eq_true rfl), System.shared_move _ _ ht, ← hx]
      rfl

theorem step (h : Reads cwd depth steps p) :
    Reads cwd depth (steps ++ [(p, m)]) ((server cwd depth).move p m) where
  always := always_move h.always m
  records _ _ _ := h.records_move
  files _ _ _ _ := h.files_move

theorem of_run {m₀ : Machine} (h : Run (server cwd depth).Step (initialPool m₀) steps p) :
    Reads cwd depth steps p := by
  induction h with
  | nil => exact init m₀
  | snoc _ hs ih => exact hs ▸ ih.step

/-- A second reading finds what the first one has found exactly when the others balance. -/
theorem undisturbed_iff (h : Reads cwd depth steps p) :
    Undisturbed p m ↔ Balanced cwd depth steps p m := by
  cases m with
  | spawn k => exact Iff.rfl
  | run i env =>
    cases ht : p.threads[i]? with
    | none =>
      have hc : System.called p (.run i env) = none := by
        simp only [System.called, ht]
      simp [Undisturbed, Balanced, ht, hc]
    | some t =>
      obtain ⟨k, rest⟩ := t
      cases rest with
      | done o =>
        have hc : System.called p (.run i env) = none := by
          simp only [System.called, ht]
        simp [Undisturbed, Thread.Undisturbed, Balanced, ht, hc]
      | call a next =>
        have hc : System.called p (.run i env) = some (k, a) := by
          simp only [System.called, ht]
        have hstage : Stage k a next := by
          have halways := h.always _ (List.mem_of_getElem? ht)
          exact halways.1
        simp only [Undisturbed, Balanced, ht, hc, Option.mem_def, Option.some.injEq, forall_eq']
        cases hstage with
        | sizing users =>
          have hread := h.records i _ users ht rfl
          rw [undisturbed_sizing]
          simp only [Call.Balanced]
          omega
        | sending directory n =>
          have hread := h.files i _ directory n ht rfl
          rw [undisturbed_sending]
          simp only [Call.Balanced]
          omega
        | making hk | opening hk | writing hk file | taking | counting directory =>
          refine iff_of_true (undisturbed_of_not_second (fun hcall => ?_) fun _ hcall => ?_) trivial
          · cases hcall
          · cases hcall
        | other ha _ _ =>
          have hsize : a ≠ .listGetSize := by
            rintro rfl
            cases ha
          have hsend : ∀ directory, a ≠ .sendFiles directory := by
            rintro directory rfl
            cases ha
          exact iff_of_true (undisturbed_of_not_second hsize hsend)
            (Call.balanced_of_plain ha)

end Reads

/-- **Announced counts**: a run announces in every reply the number of records or names that it
sends, and sends those of its snapshot, exactly if between the two readings of every listing the
other threads add as many records, or names to the directory, as they take away. -/
theorem replies_exact_iff {cwd : Pos} {depth : Nat} {m : Machine} {p : ServerPool}
    {steps : List (ServerPool × ServerMove)}
    (h : Run (server cwd depth).Step (initialPool m) steps p) :
    (∀ x ∈ steps, ∀ r ∈ (server cwd depth).returned x.1 x.2, r.2.Exact) ↔
      Heeds (Balanced cwd depth) steps := by
  induction h with
  | nil => exact iff_of_true (fun _ hx => absurd hx List.not_mem_nil) heeds_nil
  | @snoc steps p p' mv hr hs ih =>
    have hreads := Reads.of_run hr
    rw [heeds_snoc, List.forall_mem_append, List.forall_mem_singleton, ih,
      returned_exact_iff hreads.always, hreads.undisturbed_iff]

def listUsersConnection : Connection := ⟨.listUsers (.of (cstring "bob")), none⟩

def disconnectAliceConnection : Connection :=
  ⟨.change (.disconnect (.of (cstring "alice"))), none⟩

def connectAliceConnection : Connection :=
  ⟨.change (.connect (.of (cstring "alice")) (.of (cstring "4001"))), some (cstring "::1")⟩

/-- Alice connects and disconnects again between the two readings. -/
theorem alone_undisturbed :
    let moves := [.spawn connectAliceConnection, .spawn listUsersConnection,
      .spawn disconnectAliceConnection, .run 1 posixConditions,
      .run 0 posixConditions, .run 0 posixConditions, .run 0 posixConditions,
      .run 2 posixConditions, .run 2 posixConditions, .run 2 posixConditions,
      .run 1 posixConditions]
    ∀ x ∈ (server [] 8).schedule (initialPool aliceMachine) moves,
      ∀ r ∈ (server [] 8).returned x.1 x.2, r.2.Exact :=
  (replies_exact_iff ((server [] 8).run_schedule _ _)).2 (by decide)

/-- Alice connects between the two readings: one record is announced, and read from an array without
elements. -/
theorem connected_in_between :
    ¬ ∀ (steps : List (ServerPool × ServerMove)) (p : ServerPool),
      Run (server [] 8).Step (initialPool aliceMachine) steps p →
        ∀ x ∈ steps, ∀ r ∈ (server [] 8).returned x.1 x.2, r.2.Exact := by
  intro h
  have hlast := h _ _ ((server [] 8).run_schedule (initialPool aliceMachine)
    ([.spawn listUsersConnection, .spawn connectAliceConnection, .run 0 posixConditions,
      .run 1 posixConditions, .run 1 posixConditions, .run 1 posixConditions] ++
        [.run 0 posixConditions])) _ ((server [] 8).mem_schedule_snoc _ _ _)
  have hexact : Outcome.Exact (.users [] 1 [none]) := hlast (listUsersConnection, _) rfl
  exact absurd hexact (by decide)

end DistributedSystems.Lab.Preemptive
