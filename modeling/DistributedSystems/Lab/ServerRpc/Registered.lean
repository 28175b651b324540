import DistributedSystems.Lab.ServerRpc.Daemon

/-!
# Connected users are registered

Every name in the list should be that of a directory in `./Users`. The daemon loses this where a
name is used as a path, or is listed by `readdir` without being a user: CONNECT appends such a name,
UNREGISTER and DELETE remove the directory of another user through one. `Safe` are the calls that do
not, and a run of safe calls keeps every connected user registered (`registered_of_safe`).
-/

namespace DistributedSystems.Lab

open Fs Support

/-- Every name in the list is a directory in `./Users`, other than the two dot names. -/
def Registered (cwd : Pos) (s : Store) : Prop :=
  ∀ u ∈ userNames s.connected,
    u ≠ dot ∧ u ≠ dotDot ∧ s.tree.get (usersPos cwd ++ [u]) = some .dir

/-- A name of an entry is not a dot name. -/
theorem registered_iff {cwd : Pos} {s : Store} :
    Registered cwd s ↔
      ∀ u ∈ userNames s.connected, s.tree.get (usersPos cwd ++ [u]) = some .dir := by
  refine forall₂_congr fun u _ => ⟨fun h => h.2.2, fun h => ?_⟩
  have hu := Tree.validName_of_get h
  exact ⟨hu.2.2.2.1, hu.2.2.2.2, h⟩

/-- The calls that lose no connected user's directory and connect no name without one. -/
def Safe (cwd : Pos) (s : Store) (a : Call) : Prop :=
  match a.procedure with
  | .connectUserRpc arg1 =>
    isusrRegistered a.calls s.tree arg1.name = 0 ∨ arg1.name ∈ userNames s.connected ∨
      s.tree.get (usersPos cwd ++ [arg1.name]) = some .dir
  | .unregisterUserRpc arg1 =>
    isusrRegistered a.calls s.tree arg1 = 0 ∨
      ∀ p, resolve cwd s.tree (userPath arg1) = some p →
        ∀ v ∈ userNames s.connected, v ≠ arg1 → ¬ p <+: usersPos cwd ++ [v]
  | .deleteFileRpc arg1 =>
    let path := strncat (userDirPath arg1.name) arg1.fileName arg1.fileName.length
    fileExists a.calls s.tree arg1.fileName (userDirPath arg1.name) = 0 ∨
      ∀ p, resolve cwd s.tree path = some p → s.tree.names p = [] →
        ∀ v ∈ userNames s.connected, p ≠ usersPos cwd ++ [v]
  | _ => True

/-- The invariant: names are distinct and registered. -/
structure Consistent (cwd : Pos) (s : Store) : Prop where
  nodup : (userNames s.connected).Nodup
  registered : Registered cwd s

namespace Consistent

variable {cwd : Pos} {c : SysCalls} (hc : c ≤ posix cwd) {s : Store}

theorem init (t : Tree) : Consistent cwd (initServer t) :=
  ⟨List.nodup_nil, fun _ hu => absurd hu List.not_mem_nil⟩

/-- A change of the tree that keeps the directories of the connected users. -/
theorem with_tree (h : Consistent cwd s) {t : Tree}
    (hkept : ∀ u ∈ userNames s.connected, s.tree.get (usersPos cwd ++ [u]) = some .dir →
      t.get (usersPos cwd ++ [u]) = some .dir) : Consistent cwd { s with tree := t } :=
  ⟨h.nodup, registered_iff.2 fun u hu => hkept u hu (h.registered u hu).2.2⟩

theorem deleted (h : Consistent cwd s) (u : Bytes) :
    Consistent cwd { s with connected := deleteElement u s.connected } :=
  ⟨nodup_deleteElement h.nodup u,
    fun v hv => h.registered v ((mem_userNames_deleteElement h.nodup).1 hv).1⟩

theorem connect (h : Consistent cwd s) {a : ConnectArguments}
    (hsafe : isusrRegistered c s.tree a.name = 0 ∨ a.name ∈ userNames s.connected ∨
      s.tree.get (usersPos cwd ++ [a.name]) = some .dir) :
    Consistent cwd (connectUserRpc1Svc c a s).2 := by
  rcases connectUserRpc1Svc_cases c s a with ⟨h0, hnew, ha⟩ | ⟨-, -, hsame⟩
  · have hd := (hsafe.resolve_left h0).resolve_left hnew
    rw [ha]
    refine ⟨nodup_addElement h.nodup hnew, registered_iff.2 fun u hu => ?_⟩
    rw [userNames_addElement, List.mem_append, List.mem_singleton] at hu
    rcases hu with hu | rfl
    · exact (h.registered u hu).2.2
    · exact hd
  · rw [hsame]; exact h

theorem disconnect (h : Consistent cwd s) (u : Bytes) :
    Consistent cwd (disconnectUserRpc1Svc c u s).2 := by
  rcases disconnectUserRpc1Svc_cases c s u with ⟨-, -, hu⟩ | ⟨-, hsame⟩
  · rw [hu]; exact h.deleted u
  · rw [hsame]; exact h

include hc

theorem register (h : Consistent cwd s) (u : Bytes) :
    Consistent cwd (registerUserRpc1Svc c u s).2 := by
  rcases registerUserRpc1Svc_cases c s u with ⟨t, -, hm, hu⟩ | ⟨-, hsame⟩
  · rw [hu]; exact h.with_tree fun v _ hv => get_of_mkdir hc hm hv
  · rw [hsame]; exact h

theorem publish (h : Consistent cwd s) (a : PublishArguments) :
    Consistent cwd (publishFileRpc1Svc c a s).2 := by
  rcases publishFileRpc1Svc_cases c s a with ⟨t, fd, -, -, -, ho, ⟨t', hw, ha⟩ | ha⟩ | ⟨-, hsame⟩
  · rw [ha]; exact h.with_tree fun v _ hv => get_of_write hc hw (get_of_openCreate hc ho hv)
  · rw [ha]; exact h.with_tree fun v _ hv => get_of_openCreate hc ho hv
  · rw [hsame]; exact h

theorem delete (h : Consistent cwd s) {a : DeleteArguments}
    (hsafe : fileExists c s.tree a.fileName (userDirPath a.name) = 0 ∨
      ∀ p, resolve cwd s.tree
          (strncat (userDirPath a.name) a.fileName a.fileName.length) = some p →
        s.tree.names p = [] → ∀ v ∈ userNames s.connected, p ≠ usersPos cwd ++ [v]) :
    Consistent cwd (deleteFileRpc1Svc c a s).2 := by
  rcases deleteFileRpc1Svc_cases c s a with ⟨t, h0, hr, ha⟩ | ⟨-, hsame⟩
  · have hpath := hsafe.resolve_left h0
    rw [ha]
    apply h.with_tree
    intro v hv hd
    rw [get_of_remove hc hr fun p hw hempty => hpath p ?_ hempty v hv, hd]
    rw [resolve, if_neg (by simp [strncat, userDirPath]), hw]
  · rw [hsame]; exact h

/-- UNREGISTER removes the directory of its own user together with the record, or keeps both. -/
theorem unregister (h : Consistent cwd s) {u : Bytes}
    (hsafe : isusrRegistered c s.tree u = 0 ∨ ∀ p, resolve cwd s.tree (userPath u) = some p →
      ∀ v ∈ userNames s.connected, v ≠ u → ¬ p <+: usersPos cwd ++ [v]) :
    Consistent cwd (unregisterUserRpc1Svc c u s).2 := by
  rcases unregisterUserRpc1Svc_cases c s u with ⟨h0, -, hu⟩ | ⟨h0, hfail, hu⟩ | ⟨-, hu⟩
  · rw [hu]
    refine ⟨(h.deleted u).nodup, registered_iff.2 fun v hv => ?_⟩
    obtain ⟨hv, hne⟩ := (mem_userNames_deleteElement h.nodup).1 hv
    exact get_removeDirectory_userPath hc (h.registered v hv).2.2 (Or.inr hne)
      fun hne p hp => hsafe.resolve_left h0 p hp v hv hne
  · rw [hu]
    exact h.with_tree fun v hv hd => get_removeDirectory_userPath hc hd (Or.inl hfail)
      fun hne p hp => hsafe.resolve_left h0 p hp v hv hne
  · rw [hu]; exact h

end Consistent

/-! ## Runs -/

section Runs

variable {cwd : Pos}

theorem Consistent.step {s s' : Store} {a : Call} (h : Consistent cwd s) (hsafe : Safe cwd s a)
    (hs : PosixStep cwd s a s') : Consistent cwd s' := by
  obtain ⟨hc, rfl⟩ := hs
  obtain ⟨c, allocated, p⟩ := a
  cases p with
  | registerUserRpc u => exact h.register hc u
  | unregisterUserRpc u => exact h.unregister hc hsafe
  | connectUserRpc a => exact h.connect hsafe
  | disconnectUserRpc u => exact h.disconnect u
  | publishFileRpc a => exact h.publish hc a
  | deleteFileRpc a => exact h.delete hc hsafe
  | listUsers u => exact h
  | listContent u v => exact h
  | isUserRegistered u => exact h
  | isUserConnected u => exact h

/-- **Connected users are registered** in every state that a run of safe calls reaches. -/
theorem registered_of_safe {t : Tree} {steps : List (Store × Call)} {s : Store}
    (h : Run (PosixStep cwd) (initServer t) steps s) (hsafe : Guarded (Safe cwd) steps) :
    Registered cwd s :=
  (h.invariant_of_guard (Consistent.init t) (fun _ _ _ hI hG hs => hI.step hG hs) hsafe).registered

end Runs

theorem registered_alice :
    let alice := cstring "alice"
    let call (p : Procedure) : Call := ⟨posix [], true, p⟩
    Registered [] (storage1 (call (.connectUserRpc ⟨alice, [], []⟩))
      (storage1 (call (.registerUserRpc alice)) (initServer usersTree)).2).2 := by
  have hrun : Run (PosixStep []) (initServer usersTree) _ _ :=
    (Run.nil.snoc (a := ⟨posix [], true, .registerUserRpc (cstring "alice")⟩)
      ⟨SysCalls.le_refl _, rfl⟩).snoc
      (a := ⟨posix [], true, .connectUserRpc ⟨cstring "alice", [], []⟩⟩) ⟨SysCalls.le_refl _, rfl⟩
  refine registered_of_safe hrun (guarded_snoc.2 ⟨guarded_snoc.2 ⟨guarded_nil _, trivial⟩, ?_⟩)
  exact Or.inr (Or.inr (by decide))

/-- CONNECT takes the name `.`, which `readdir` lists. -/
theorem connect_dot_not_registered :
    ¬ ∀ (cwd : Pos) (t : Tree) (steps : List (Store × Call)) (s : Store),
      t.get (usersPos cwd) = some .dir → Run (PosixStep cwd) (initServer t) steps s →
        Registered cwd s := by
  intro h
  have hreg := h [] usersTree _ _ (by decide)
    (Run.nil.snoc (a := ⟨posix [], true, .connectUserRpc ⟨dot, [], []⟩⟩) ⟨SysCalls.le_refl _, rfl⟩)
  exact (hreg dot (by decide)).1 rfl

end DistributedSystems.Lab
