import DistributedSystems.Lab.ServerC.TreeCalls

/-!
# A name is registered once

REGISTER looks for the name and then makes the directory, so two of them may both find it missing.
What keeps them apart is `mkdir`, which fails when there is an entry. After a SUCCESS the directory
is there until a call takes it away, however the removals in between have gone on
(`registered_once`). The answer of a REGISTER is settled by its `mkdir`, with which it counts.
-/

namespace DistributedSystems.Lab.Preemptive

open Fs Support

/-- The connection asks to register this name. -/
def Connection.registers (u : Bytes) (k : Connection) : Bool :=
  match k.operation with
  | .change (.register userName) => userName.text = u
  | _ => false

/-- The move ends a REGISTER of the name with SUCCESS. -/
def registered (cwd : Pos) (depth : Nat) (u : Bytes) (x : ServerPool × ServerMove) : Bool :=
  match (server cwd depth).returned x.1 x.2 with
  | some (k, .status output) => k.registers u && output = success
  | _ => false

/-- How many REGISTERs of the name have answered SUCCESS since its directory was last removed. -/
def registrations (cwd : Pos) (depth : Nat) (u : Bytes) (steps : List (ServerPool × ServerMove)) :
    Nat :=
  countSince (takesAway cwd depth (usersPos cwd ++ [u])) (registered cwd depth u) steps

theorem registers_iff {u : Bytes} {k : Connection} :
    k.registers u = true ↔ ∃ userName, k.operation = .change (.register userName) ∧
      userName.text = u := by
  unfold Connection.registers
  split
  · rename_i userName hk
    simp [hk]
  · rename_i hne
    constructor
    · intro h
      cases h
    · rintro ⟨userName, hk, -⟩
      exact absurd hk (hne userName)

theorem registered_iff {cwd : Pos} {depth : Nat} {u : Bytes} {p : ServerPool} {m : ServerMove} :
    registered cwd depth u (p, m) = true ↔
      ∃ k, (server cwd depth).returned p m = some (k, .status success) ∧
        k.registers u = true := by
  unfold registered
  dsimp only
  split
  · rename_i k output hr
    rw [hr]
    simp [and_comm]
  · rename_i hne
    refine iff_of_false Bool.false_ne_true ?_
    rintro ⟨k, hr, -⟩
    exact hne k success hr

/-! ## The directory of a plain name -/

theorem walk_usersDirectory_eq_some {cwd p : Pos} {t : Tree}
    (hw : walk t cwd [dot, users] = some p) : p = usersPos cwd := by
  rw [walk_cons] at hw
  obtain ⟨q, hq, hw⟩ := Option.bind_eq_some_iff.1 hw
  rw [step_dot (get_of_step hq)] at hq
  obtain rfl := Option.some.inj hq
  rw [walk_cons, step_of_validName validName_users] at hw
  split at hw
  · exact (Option.some.inj hw).symm
  · cases hw

/-- The directory that `mkdir` makes for a plain name. -/
theorem leaf_userPath {cwd p : Pos} {t : Tree} {u n : Bytes} (hu : ValidName u)
    (hleaf : leaf t (origin cwd (userPath u)) (stripTrailing (components (userPath u))) =
      some (p, n)) : p = usersPos cwd ∧ n = u := by
  rw [components_userPath, components_of_not_mem hu.2.1, origin_userPath,
    show [dot, users, u] = [dot, users] ++ [u] from rfl, stripTrailing_snoc hu.1] at hleaf
  obtain ⟨ds, hds, hw, -⟩ := leaf_eq_some_iff.1 hleaf
  obtain ⟨rfl, rfl⟩ := List.append_singleton_inj.1 hds
  exact ⟨walk_usersDirectory_eq_some hw, rfl⟩

/-! ## One call of a REGISTER -/

/-- A REGISTER makes the directory and answers SUCCESS, or changes nothing and does not. -/
theorem register_call {cwd : Pos} {env : Conditions} (henv : env.Changes cwd) {k : Connection}
    {u : Bytes} (hu : ValidName u) (hk : k.registers u = true) {a : Call}
    {next : a.Answer → Handler} (hs : Stage k a next) (m : Machine) :
    ((perform cwd env a m).2 = m ∧
        (next (perform cwd env a m).1).result? ≠ some (.status success)) ∨
      ∃ t, m.store.tree.create (usersPos cwd) u .dir = some t ∧
        (perform cwd env a m).2 = m.withTree t ∧
          (next (perform cwd env a m).1).result? = some (.status success) := by
  obtain ⟨userName, hop, rfl⟩ := registers_iff.1 hk
  cases hs with
  | @making v hv =>
    obtain rfl := Request.register.inj (Operation.change.inj (hv.symm.trans hop))
    cases hmkdir : env.calls.mkdir m.store.tree (userPath v.text) with
    | none =>
      have hcall : perform cwd env (.mkdir (userPath v.text)) m = (-1, m) := by
        simp only [perform, hmkdir, Machine.change]
      rw [hcall]
      refine Or.inl ⟨rfl, fun hres => ?_⟩
      cases hres
    | some t =>
      have hcall : perform cwd env (.mkdir (userPath v.text)) m = (0, m.withTree t) := by
        simp only [perform, hmkdir, Machine.change]
      obtain ⟨p, n, hleaf, hcreate⟩ := posix.mkdir_eq_some_iff.1 (henv.mkdir _ _ _ hmkdir)
      obtain ⟨rfl, rfl⟩ := leaf_userPath hu hleaf
      rw [hcall]
      exact Or.inr ⟨t, hcreate, rfl, rfl⟩
  | opening hv => cases hv.symm.trans hop
  | writing hv => cases hv.symm.trans hop
  | taking =>
    refine Or.inl ⟨rfl, ?_⟩
    simp only [perform]
    split
    · intro hres
      cases hres
    · intro hres
      cases hres
  | sizing users =>
    refine Or.inl ⟨rfl, fun hres => ?_⟩
    cases hres
  | counting directory =>
    refine Or.inl ⟨rfl, fun hres => ?_⟩
    cases hres
  | sending directory n =>
    refine Or.inl ⟨rfl, fun hres => ?_⟩
    cases hres
  | other _ hreads hother =>
    have hcreates : k.Creates := Or.inl ⟨userName, hop⟩
    refine Or.inl ⟨perform_reads (hreads hcreates) m, fun hres => ?_⟩
    obtain ⟨output, hstatus, hne⟩ := (hother _).status _ hres
    exact hne hcreates (Outcome.status.inj hstatus).symm

/-! ## One move -/

section Move

variable {cwd : Pos} {depth : Nat} {u : Bytes} {p : ServerPool} {m : ServerMove}

/-- A SUCCESS finds no directory and leaves one. -/
theorem registered_creates (hu : ValidName u) (hp : p.Always Stage) (hC : OnPosix cwd m)
    (h : registered cwd depth u (p, m) = true) :
    p.shared.store.tree.get (usersPos cwd ++ [u]) = none ∧
      ((server cwd depth).move p m).shared.store.tree.get (usersPos cwd ++ [u]) = some .dir := by
  have hm := (server cwd depth).moved p m
  obtain ⟨k, hret, hk⟩ := registered_iff.1 h
  generalize (server cwd depth).move p m = p' at hm
  cases hm with
  | spawned => cases hret
  | idle i env hc hr => cases hr.symm.trans hret
  | @called env before after k' a next ht hc hr =>
    obtain ⟨o, ho, hpair⟩ := Option.map_eq_some_iff.1 (hr.symm.trans hret)
    obtain ⟨rfl, rfl⟩ := Prod.mk.inj hpair
    rcases register_call hC hu hk (hp.call ht) p.shared with ⟨-, hne⟩ | ⟨t, hcreate, hleft, -⟩
    · exact absurd ho hne
    · have hnew := Tree.create_isSome_iff.1 (Option.isSome_of_eq_some hcreate)
      refine ⟨hnew.2.1, ?_⟩
      change (perform cwd env a p.shared).2.store.tree.get _ = _
      rw [hleft, Machine.tree_withTree, Tree.get_create hcreate, if_pos rfl]

/-- A move of a REGISTER that does not end it with SUCCESS changes nothing. -/
theorem shared_of_not_registered (hu : ValidName u) (hp : p.Always Stage) (hC : OnPosix cwd m)
    {k : Connection} {a : Call} (hc : System.called p m = some (k, a))
    (hk : k.registers u = true) (h : registered cwd depth u (p, m) = false) :
    ((server cwd depth).move p m).shared = p.shared := by
  have hm := (server cwd depth).moved p m
  have hret : (server cwd depth).returned p m ≠ some (k, .status success) := by
    intro hret
    rw [registered_iff.2 ⟨k, hret, hk⟩] at h
    cases h
  generalize (server cwd depth).move p m = p' at hm
  cases hm with
  | spawned => rfl
  | idle => rfl
  | @called env before after k' a' next ht hc' hr =>
    obtain ⟨rfl, rfl⟩ := Prod.mk.inj (Option.some.inj (hc'.symm.trans hc))
    rcases register_call hC hu hk (hp.call ht) p.shared with ⟨hsame, -⟩ | ⟨t, -, -, hres⟩
    · exact hsame
    · refine absurd (hr.trans ?_) hret
      exact congrArg (Option.map _) hres

end Move

/-! ## Runs -/

/-- The invariant: a REGISTER counts while its directory is there. -/
structure Registered (cwd : Pos) (depth : Nat) (u : Bytes) (steps : List (ServerPool × ServerMove))
    (p : ServerPool) : Prop where
  always : p.Always Stage
  count_le : registrations cwd depth u steps ≤ 1
  dir : registrations cwd depth u steps = 1 →
    p.shared.store.tree.get (usersPos cwd ++ [u]) = some .dir

theorem Registered.step {cwd : Pos} {depth : Nat} {u : Bytes} (hu : ValidName u)
    {steps : List (ServerPool × ServerMove)} {p : ServerPool} {m : ServerMove}
    (h : Registered cwd depth u steps p) (hC : OnPosix cwd m) :
    Registered cwd depth u (steps ++ [(p, m)]) ((server cwd depth).move p m) := by
  have hcount := countSince_snoc (takesAway cwd depth (usersPos cwd ++ [u]))
    (registered cwd depth u) steps (p, m)
  rw [← registrations, ← registrations] at hcount
  cases htaken : takesAway cwd depth (usersPos cwd ++ [u]) (p, m) with
  | true =>
    rw [if_pos htaken] at hcount
    exact ⟨always_move h.always m, by omega, fun hone => by omega⟩
  | false =>
    rw [if_neg (by simp [htaken])] at hcount
    cases hreg : registered cwd depth u (p, m) with
    | true =>
      -- the directory was missing, so that nothing had counted
      obtain ⟨hnone, hdir⟩ := registered_creates hu h.always hC hreg
      rw [if_pos hreg] at hcount
      have hzero : registrations cwd depth u steps ≠ 1 := by
        intro hone
        rw [h.dir hone] at hnone
        cases hnone
      have hle := h.count_le
      exact ⟨always_move h.always m, by omega, fun _ => hdir⟩
    | false =>
      rw [if_neg (by simp [hreg])] at hcount
      refine ⟨always_move h.always m, hcount ▸ h.count_le, fun hone => ?_⟩
      exact get_move_dir hC (h.dir (hcount ▸ hone)) htaken

theorem Registered.run {cwd : Pos} {depth : Nat} {u : Bytes} (hu : ValidName u) {m : Machine}
    {p : ServerPool} {steps : List (ServerPool × ServerMove)}
    (h : Run ((server cwd depth).StepIn (OnPosix cwd)) (initialPool m) steps p) :
    Registered cwd depth u steps p := by
  induction h with
  | nil => exact ⟨fun _ ht => absurd ht List.not_mem_nil, Nat.zero_le _, nofun⟩
  | snoc _ hs ih => exact hs.2 ▸ ih.step hu hs.1

/-- **A name is registered once**: since its directory was last removed, at most one REGISTER has
answered SUCCESS, and no other call of a REGISTER has changed anything. -/
theorem registered_once {cwd : Pos} {depth : Nat} {u : Bytes} (hu : ValidName u) {m : Machine}
    {p : ServerPool} {steps : List (ServerPool × ServerMove)}
    (h : Run ((server cwd depth).StepIn (OnPosix cwd)) (initialPool m) steps p) :
    registrations cwd depth u steps ≤ 1 ∧
      ∀ x ∈ steps, ∀ k a, System.called x.1 x.2 = some (k, a) → k.registers u = true →
        registered cwd depth u x = false →
          ((server cwd depth).move x.1 x.2).shared = x.1.shared := by
  refine ⟨(Registered.run hu h).count_le, ?_⟩
  induction h with
  | nil => exact fun x hx => absurd hx List.not_mem_nil
  | snoc hrun hs ih =>
    intro x hx k a hc hk hreg
    rcases List.mem_append.1 hx with hx | hx
    · exact ih x hx k a hc hk hreg
    · obtain rfl := List.mem_singleton.1 hx
      exact shared_of_not_registered hu (Registered.run hu hrun).always hs.1 hc hk hreg

def registerBob : Connection := ⟨.change (.register (.of (cstring "bob"))), none⟩

def unregisterBob : Connection := ⟨.change (.unregister (.of (cstring "bob"))), none⟩

/-- Two REGISTERs that both find no directory, a removal, and a third one. -/
def bobTwice : List ServerMove :=
  [.spawn registerBob, .spawn registerBob, .run 0 posixConditions, .run 1 posixConditions,
    .run 0 posixConditions, .run 1 posixConditions, .spawn unregisterBob, .spawn registerBob,
    .run 2 posixConditions, .run 2 posixConditions, .run 2 posixConditions, .run 3 posixConditions,
    .run 3 posixConditions]

theorem bob_once :
    registrations [] 8 (cstring "bob")
        ((server [] 8).schedule (initialPool aliceMachine) bobTwice) ≤ 1 ∧
      (bobTwice.foldl (server [] 8).move (initialPool aliceMachine)).shared.store.tree.names
        (usersPos []) = [cstring "alice", cstring "bob"] := by
  have hC : ∀ m ∈ bobTwice, OnPosix [] m := by
    simp [bobTwice, OnPosix, posixConditions, changes_posix]
  have hrun := (server [] 8).run_schedule_in (initialPool aliceMachine) bobTwice hC
  exact ⟨(registered_once (by decide) hrun).1, by decide⟩

end DistributedSystems.Lab.Preemptive
