import DistributedSystems.Lab.ServerC.Stages

/-!
# What the calls do to the tree

On a system whose changing calls fail or do what POSIX says, a call of a thread makes one entry,
takes one away, writes to one file, or leaves the tree as it is (`Effect`). Nothing is asked of the
calls that only read: a scan of a directory may miss or repeat what changes while it goes on.
-/

namespace DistributedSystems.Lab.Preemptive

open Fs Support

/-- The calls that change the tree fail or do what they do on a POSIX system. -/
structure Conditions.Changes (cwd : Pos) (env : Conditions) : Prop where
  mkdir : ∀ t path t', env.calls.mkdir t path = some t' → (posix cwd).mkdir t path = some t'
  openCreate : ∀ t path r, env.calls.openCreate t path = some r →
    (posix cwd).openCreate t path = some r
  write : ∀ t p data t', env.calls.write t p data = some t' → (posix cwd).write t p data = some t'
  unlink : ∀ t path t', env.calls.unlink t path = some t' → (posix cwd).unlink t path = some t'
  rmdir : ∀ t path t', env.calls.rmdir t path = some t' → (posix cwd).rmdir t path = some t'
  remove : ∀ t path t', env.calls.remove t path = some t' → (posix cwd).remove t path = some t'

theorem changes_posix (cwd : Pos) (allocated : Bool) :
    Conditions.Changes cwd ⟨posix cwd, allocated⟩ :=
  ⟨fun _ _ _ h => h, fun _ _ _ h => h, fun _ _ _ _ h => h, fun _ _ _ h => h, fun _ _ _ h => h,
    fun _ _ _ h => h⟩

/-- A thread that runs does so on such a system. -/
def OnPosix (cwd : Pos) : ServerMove → Prop
  | .spawn _ => True
  | .run _ env => env.Changes cwd

/-- The call takes an entry away, if it does not fail. -/
def Call.removes : Call → Bool
  | .unlink _ => true
  | .rmdir _ => true
  | .remove _ => true
  | _ => false

/-- The call opens or writes to a file. -/
def Call.publishes : Call → Bool
  | .openCreate _ => true
  | .write _ _ => true
  | _ => false

/-- What a call answers and leaves. -/
inductive Effect (cwd : Pos) (m : Machine) : (a : Call) → a.Answer × Machine → Prop
  | keeps {a : Call} {x : a.Answer} {m' : Machine} (ha : a.publishes = false)
    (htree : m'.store.tree = m.store.tree) (hremovals : m'.removals = m.removals) :
    Effect cwd m a (x, m')
  | made {path n : Bytes} {p : Pos} {t : Tree}
    (hleaf : leaf m.store.tree (origin cwd path) (stripTrailing (components path)) = some (p, n))
    (hcreate : m.store.tree.create p n .dir = some t) :
    Effect cwd m (.mkdir path) (0, m.withTree t)
  | removed {a : Call} {x : a.Answer} {p : Pos} {t : Tree} (ha : a.removes = true) (hp : p ≠ [])
    (herase : m.store.tree.erase p = some t) : Effect cwd m a (x, m.withTree t)
  | notOpened (path : Bytes) : Effect cwd m (.openCreate path) (none, m)
  | reopened {path n old : Bytes} {p : Pos}
    (hleaf : leaf m.store.tree (origin cwd path) (components path) = some (p, n))
    (hget : m.store.tree.get (p ++ [n]) = some (.file old)) :
    Effect cwd m (.openCreate path) (some (m.opened (p ++ [n])), m)
  | created {path n : Bytes} {p : Pos} {t : Tree}
    (hleaf : leaf m.store.tree (origin cwd path) (components path) = some (p, n))
    (hcreate : m.store.tree.create p n (.file []) = some t) :
    Effect cwd m (.openCreate path) (some ((m.withTree t).opened (p ++ [n])), m.withTree t)
  | notWritten (file : Descriptor) (data : Bytes) : Effect cwd m (.write file data) (-1, m)
  /-- The file has been removed since it was opened. -/
  | lost {file : Descriptor} (data : Bytes) (hdead : ¬ m.Alive file) :
    Effect cwd m (.write file data) (0, m)
  | written {file : Descriptor} (data : Bytes) (halive : m.Alive file) :
    Effect cwd m (.write file data) (0, m.withTree (m.store.tree.write file.pos data))

theorem Machine.withTree_self (m : Machine) : m.withTree m.store.tree = m := by
  obtain ⟨⟨tree, connected⟩, removals⟩ := m
  unfold Machine.withTree
  congr
  funext q
  rw [if_neg]
  rintro ⟨hsome, hnone⟩
  rw [hnone] at hsome
  cases hsome

/-- Only a removal is counted as one. -/
theorem Machine.removals_withTree_of_kept {m : Machine} {t : Tree} {q : Pos}
    (h : ∀ e, m.store.tree.get q = some e → t.get q ≠ none) :
    (m.withTree t).removals q = m.removals q := by
  unfold Machine.withTree
  refine if_neg ?_
  rintro ⟨hsome, hnone⟩
  obtain ⟨e, he⟩ := Option.isSome_iff_exists.1 hsome
  exact h e he hnone

theorem Machine.removals_withTree_of_removed {m : Machine} {t : Tree} {q : Pos}
    (h : (m.store.tree.get q).isSome) (hnone : t.get q = none) :
    (m.withTree t).removals q = m.removals q + 1 := if_pos ⟨h, hnone⟩

theorem Machine.removals_le_withTree (m : Machine) (t : Tree) (q : Pos) :
    m.removals q ≤ (m.withTree t).removals q := by
  unfold Machine.withTree
  dsimp only
  split <;> omega

section Effect

variable {cwd : Pos} {env : Conditions} (henv : env.Changes cwd)

/-- A call that removes something or fails. -/
theorem effect_change {a : Call} (ha : a.removes = true) (m : Machine) {t : Option Tree}
    {r : a.Answer × Machine}
    (hr : (t = none ∧ r.2 = m) ∨ ∃ t', t = some t' ∧ r.2 = m.withTree t')
    (herase : ∀ t', t = some t' → ∃ p, p ≠ [] ∧ m.store.tree.erase p = some t') :
    Effect cwd m a r := by
  obtain ⟨x, m'⟩ := r
  have hp : a.publishes = false := by
    cases a <;> first | rfl | cases ha
  rcases hr with ⟨-, rfl⟩ | ⟨t', ht, rfl⟩
  · exact .keeps hp rfl rfl
  · obtain ⟨p, hne, he⟩ := herase t' ht
    exact .removed ha hne he

theorem change_cases (m : Machine) (t : Option Tree) :
    (t = none ∧ (m.change t).2 = m) ∨ ∃ t', t = some t' ∧ (m.change t).2 = m.withTree t' := by
  cases t with
  | none => exact Or.inl ⟨rfl, rfl⟩
  | some t => exact Or.inr ⟨t, rfl, rfl⟩

include henv

/-- **The effect of a call.** -/
theorem effect (a : Call) (m : Machine) : Effect cwd m a (perform cwd env a m) := by
  cases a with
  | mkdir path =>
    rcases change_cases m (env.calls.mkdir m.store.tree path) with ⟨ht, -⟩ | ⟨t, ht, -⟩
    · have hcall : perform cwd env (.mkdir path) m = (-1, m) := by
        simp only [perform, ht, Machine.change]
      rw [hcall]
      exact .keeps rfl rfl rfl
    · have hcall : perform cwd env (.mkdir path) m = (0, m.withTree t) := by
        simp only [perform, ht, Machine.change]
      obtain ⟨p, n, hleaf, hcreate⟩ := posix.mkdir_eq_some_iff.1 (henv.mkdir _ _ _ ht)
      rw [hcall]
      exact .made hleaf hcreate
  | unlink path =>
    refine effect_change rfl m (change_cases m _) fun t ht => ?_
    obtain ⟨p, n, old, -, -, herase⟩ := posix.unlink_eq_some_iff.1 (henv.unlink _ _ _ ht)
    exact ⟨p ++ [n], by simp, herase⟩
  | rmdir path =>
    refine effect_change rfl m (change_cases m _) fun t ht => ?_
    obtain ⟨p, n, -, -, herase⟩ := posix.rmdir_eq_some_iff.1 (henv.rmdir _ _ _ ht)
    exact ⟨p ++ [n], by simp, herase⟩
  | remove path =>
    refine effect_change rfl m (change_cases m _) fun t ht => ?_
    obtain ⟨p, n, e, -, -, -, herase⟩ := posix.remove_erases (henv.remove _ _ _ ht)
    exact ⟨p ++ [n], by simp, herase⟩
  | openCreate path =>
    cases hopen : env.calls.openCreate m.store.tree path with
    | none =>
      have hcall : perform cwd env (.openCreate path) m = (none, m) := by
        simp only [perform, hopen]
      rw [hcall]
      exact .notOpened path
    | some r =>
      obtain ⟨t, fd⟩ := r
      have hcall : perform cwd env (.openCreate path) m =
          (some ((m.withTree t).opened fd), m.withTree t) := by
        simp only [perform, hopen]
      rw [hcall]
      obtain ⟨p, n, hleaf, rfl, ⟨old, hget, rfl⟩ | hcreate⟩ :=
        posix.openCreate_eq_some_iff.1 (henv.openCreate _ _ _ hopen)
      · rw [m.withTree_self]
        exact .reopened hleaf hget
      · exact .created hleaf hcreate
  | write file data =>
    cases hwrite : env.calls.write m.store.tree file.pos data with
    | none =>
      have hcall : perform cwd env (.write file data) m = (-1, m) := by
        simp only [perform, hwrite]
      rw [hcall]
      exact .notWritten file data
    | some t =>
      have hcall : perform cwd env (.write file data) m =
          (0, if m.Alive file then m.withTree t else m) := by
        simp only [perform, hwrite]
      obtain rfl : m.store.tree.write file.pos data = t :=
        Option.some.inj (henv.write _ _ _ _ hwrite)
      rw [hcall]
      split
      · exact .written data ‹_›
      · exact .lost data ‹_›
  | _ => exact .keeps rfl rfl rfl

end Effect

/-- A directory stays until a call takes it away. -/
theorem Effect.get_dir {cwd : Pos} {m : Machine} {a : Call} {r : a.Answer × Machine} {q : Pos}
    (h : Effect cwd m a r) (hq : m.store.tree.get q = some .dir) :
    r.2.store.tree.get q = some .dir ∨ (a.removes = true ∧ r.2.store.tree.get q = none) := by
  cases h with
  | keeps _ htree _ => exact Or.inl (htree ▸ hq)
  | made _ hcreate => exact Or.inl (Tree.get_of_create hcreate hq)
  | @removed a x p t ha hp herase =>
    have hget := Tree.get_erase hp herase q
    by_cases hqp : q = p
    · rw [if_pos hqp] at hget
      exact Or.inr ⟨ha, hget⟩
    · rw [if_neg hqp] at hget
      exact Or.inl (hget.trans hq)
  | notOpened => exact Or.inl hq
  | reopened => exact Or.inl hq
  | created _ hcreate => exact Or.inl (Tree.get_of_create hcreate hq)
  | notWritten => exact Or.inl hq
  | lost => exact Or.inl hq
  | @written file data _ =>
    refine Or.inl ?_
    rw [Machine.tree_withTree, Tree.get_write, hq]
    split <;> rfl

/-! ## Removals in a run -/

/-- The move is a call that takes away the entry at `q`. -/
def takesAway (cwd : Pos) (depth : Nat) (q : Pos) (x : ServerPool × ServerMove) : Bool :=
  match System.called x.1 x.2 with
  | some (_, a) => a.removes && (x.1.shared.store.tree.get q).isSome &&
      (((server cwd depth).move x.1 x.2).shared.store.tree.get q).isNone
  | none => false

section Moves

variable {cwd q : Pos} {depth : Nat} {p : ServerPool} {m : ServerMove}

theorem takesAway_of_called {k : Connection} {a : Call} (hc : System.called p m = some (k, a)) :
    takesAway cwd depth q (p, m) = (a.removes && (p.shared.store.tree.get q).isSome &&
      (((server cwd depth).move p m).shared.store.tree.get q).isNone) := by
  unfold takesAway
  rw [hc]

theorem takesAway_of_not_called (hc : System.called p m = none) :
    takesAway cwd depth q (p, m) = false := by
  unfold takesAway
  rw [hc]

theorem get_move_dir (hC : OnPosix cwd m) (hq : p.shared.store.tree.get q = some .dir)
    (hkept : takesAway cwd depth q (p, m) = false) :
    ((server cwd depth).move p m).shared.store.tree.get q = some .dir := by
  have hm := (server cwd depth).moved p m
  generalize hp' : (server cwd depth).move p m = p' at hm
  cases hm with
  | spawned => exact hq
  | idle => exact hq
  | @called env before after k a next ht hc hr =>
    rw [takesAway_of_called hc, hp'] at hkept
    rcases (effect hC a p.shared).get_dir hq with hdir | ⟨ha, hnone⟩
    · exact hdir
    · rw [ha, hq] at hkept
      change ((perform cwd env a p.shared).2.store.tree.get q).isNone = false at hkept
      rw [hnone] at hkept
      cases hkept

end Moves

end DistributedSystems.Lab.Preemptive
