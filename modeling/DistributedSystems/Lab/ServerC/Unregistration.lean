import DistributedSystems.Lab.ServerC.Interleaved

/-!
# Unregistration under concurrency

UNREGISTER removes the directory of a user before the record, and CONNECT checks the directory
before it appends the record. A record without a directory is therefore only passing as long as
every append comes while the directory is there or a deletion of the record is still to come
(`registered_of_backed`). A whole UNREGISTER between the check and the append leaves a record for
good (`connect_outlives_unregister`).
-/

namespace DistributedSystems.Lab

open Fs Support

/-- Requests with ordinary user names, and calls of a POSIX system, which may fail. -/
def PosixMove (cwd : Pos) : ServerMove → Prop
  | .spawn r => ValidName r.user
  | .run _ c => c ≤ posix cwd

/-- The user has a directory, or a thread is about to delete the user's record. -/
def Backed (cwd : Pos) (p : ServerPool) (u : Bytes) : Prop :=
  p.shared.tree.get (usersPos cwd ++ [u]) = some .dir ∨
    ∃ t ∈ p.threads, t.rest.action? = some (.deleteElement u)

instance (cwd : Pos) (p : ServerPool) (u : Bytes) : Decidable (Backed cwd p u) :=
  inferInstanceAs (Decidable (_ ∨ ∃ t ∈ p.threads, _))

/-- An append finds its name missing from the list and its user backed. -/
def BackedAppend (cwd : Pos) (p : ServerPool) (m : ServerMove) : Prop :=
  ∀ d ∈ appended p m, d.name ∉ userNames p.shared.connected ∧ Backed cwd p d.name

instance (cwd : Pos) (p : ServerPool) (m : ServerMove) : Decidable (BackedAppend cwd p m) :=
  inferInstanceAs (Decidable (∀ d ∈ appended p m, _))

/-! ## The programs -/

/-- A directory that is removed is that of an ordinary name, whose record is deleted next. -/
def Cleans (_ : UserRequest) : (a : Action) → (a.Answer → Handler) → Prop
  | .removeDirectory path, next => ∃ u, ValidName u ∧ path = userPath u ∧
      ∀ removed : Int, removed ≠ -1 → (next removed).action? = some (.deleteElement u)
  | _, _ => True

theorem cleans_program {r : UserRequest} (hr : ValidName r.user) : r.program.Always (Cleans r) := by
  cases r with
  | register u => exact registerUser.always_program trivial trivial
  | unregister u =>
    refine unregisterUser.always_program trivial ⟨u, hr, rfl, fun removed hne => ?_⟩ trivial
    unfold unregisterUser.removed
    rw [if_neg hne]
    rfl
  | connect u port address =>
    exact connectUser.always_program trivial trivial fun _ _ => trivial
  | disconnect u => exact disconnectUser.always_program trivial trivial trivial

theorem get_of_perform_mkdir {cwd : Pos} {c : SysCalls} (hc : c ≤ posix cwd) {path : Bytes}
    {s : Store} {q : Pos} {e : Entry} (hq : s.tree.get q = some e) :
    (perform c (.mkdir path) s).2.tree.get q = some e := by
  simp only [perform]
  split
  · exact hq
  · rename_i t hm
    exact get_of_mkdir hc hm hq

/-! ## Runs -/

/-- The invariant: names are distinct, and every connected user is backed. -/
structure AllBacked (cwd : Pos) (p : ServerPool) : Prop where
  nodup : (userNames p.shared.connected).Nodup
  always : p.Always Cleans
  backed : ∀ u ∈ userNames p.shared.connected, Backed cwd p u

namespace AllBacked

variable {cwd : Pos} {p p' : ServerPool} {m : ServerMove}

theorem init (t : Tree) : AllBacked cwd (initialPool t) where
  nodup := List.nodup_nil
  always := fun _ ht => absurd ht List.not_mem_nil
  backed := fun _ hu => absurd hu List.not_mem_nil

end AllBacked

/-- What backs a user stays, unless the call deletes the record or removes the directory. -/
theorem Backed.called {cwd : Pos} {p : ServerPool} {u : Bytes} (h : Backed cwd p u)
    {before after : List (Thread UserRequest Action.Answer Int)} {r : UserRequest} {a : Action}
    {next : a.Answer → Handler} (ht : p.threads = before ++ ⟨r, .call a next⟩ :: after)
    (ha : a ≠ .deleteElement u) {s : Store} {rest : Handler}
    (hkept : p.shared.tree.get (usersPos cwd ++ [u]) = some .dir →
      s.tree.get (usersPos cwd ++ [u]) = some .dir ∨ rest.action? = some (.deleteElement u)) :
    Backed cwd ⟨s, before ++ ⟨r, rest⟩ :: after⟩ u := by
  rcases h with hd | ⟨t, hmem, hact⟩
  · exact (hkept hd).imp_right fun hrest => ⟨⟨r, rest⟩, by simp, hrest⟩
  · refine Or.inr ⟨t, ?_, hact⟩
    rw [ht, List.mem_append, List.mem_cons] at hmem
    rw [List.mem_append, List.mem_cons]
    refine hmem.imp_right fun hmem => Or.inr (hmem.resolve_left ?_)
    rintro rfl
    exact ha (Option.some.inj hact)

namespace AllBacked

variable {cwd : Pos} {p p' : ServerPool} {m : ServerMove}

theorem step (h : AllBacked cwd p) (hG : BackedAppend cwd p m)
    (hs : server.StepIn (PosixMove cwd) p m p') : AllBacked cwd p' := by
  obtain ⟨hplain, hs⟩ := hs
  have halways : p'.Always Cleans := by
    rw [← hs]
    refine server.always_move p (fun r hr => ?_) h.always
    subst hr
    exact cleans_program hplain
  have hm := server.moved p m
  rw [hs] at hm
  cases hm with
  | spawned r =>
    refine ⟨h.nodup, halways, fun u hu => (h.backed u hu).imp_right ?_⟩
    rintro ⟨t, ht, hact⟩
    exact ⟨t, List.mem_append_left _ ht, hact⟩
  | idle i env => exact h
  | @called env before after r a next ht hc =>
    have hclean : Cleans r a next := (h.always ⟨r, .call a next⟩ (by simp [ht])).1
    cases a with
    | isusrRegistered v =>
      exact ⟨h.nodup, halways, fun u hu => (h.backed u hu).called ht (by simp) Or.inl⟩
    | findElementByname v =>
      exact ⟨h.nodup, halways, fun u hu => (h.backed u hu).called ht (by simp) Or.inl⟩
    | addElement d =>
      obtain ⟨hnew, hd⟩ := hG d (mem_appended_iff.2 ⟨r, hc⟩)
      refine ⟨nodup_addElement h.nodup hnew, halways, fun u hu => ?_⟩
      have hu : u ∈ userNames (addElement d p.shared.connected) := hu
      rw [userNames_addElement, List.mem_append, List.mem_singleton] at hu
      rcases hu with hu | rfl
      · exact (h.backed u hu).called ht (by simp) Or.inl
      · exact hd.called ht (by simp) Or.inl
    | deleteElement v =>
      refine ⟨nodup_deleteElement h.nodup v, halways, fun u hu => ?_⟩
      obtain ⟨hu, hne⟩ := (mem_userNames_deleteElement h.nodup).1 hu
      exact (h.backed u hu).called ht (by simpa using Ne.symm hne) Or.inl
    | mkdir path =>
      have hconn := connected_perform (a := .mkdir path) (by simp) (by simp) env p.shared
      refine ⟨hconn ▸ h.nodup, halways, fun u hu => ?_⟩
      refine (h.backed u (hconn ▸ hu)).called ht (by simp) fun hd => Or.inl ?_
      exact get_of_perform_mkdir hplain hd
    | removeDirectory path =>
      obtain ⟨v, hv, rfl, hnext⟩ := hclean
      refine ⟨h.nodup, halways, fun u hu => (h.backed u hu).called ht (by simp) fun hd => ?_⟩
      by_cases hor : (removeDirectory env p.shared.tree (userPath v)).1 = -1 ∨ u ≠ v
      · refine Or.inl (get_removeDirectory_userPath hplain hd hor fun hne q hq hpre => ?_)
        obtain rfl := resolve_userPath_eq_some hv hq
        have heq := hpre.eq_of_length (by simp)
        exact hne (List.append_singleton_inj.1 heq).2.symm
      · obtain ⟨hdone, huv⟩ := not_or.1 hor
        exact Or.inr (not_not.1 huv ▸ hnext _ hdone)

/-- Once nothing is part-way, no deletion backs a user. -/
theorem registered (h : AllBacked cwd p) (hq : p.Quiescent) {u : Bytes}
    (hu : u ∈ userNames p.shared.connected) :
    p.shared.tree.get (usersPos cwd ++ [u]) = some .dir := by
  apply (h.backed u hu).resolve_right
  rintro ⟨t, ht, hact⟩
  rw [hq t ht] at hact
  cases hact

end AllBacked

/-- **No connection survives unregistration**, in every state without a thread part-way of a run
whose appends all find their user backed. -/
theorem registered_of_backed {cwd : Pos} {t : Tree} {steps : List (ServerPool × ServerMove)}
    {p : ServerPool} (h : Run (server.StepIn (PosixMove cwd)) (initialPool t) steps p)
    (hG : Guarded (BackedAppend cwd) steps) (hq : p.Quiescent) :
    ∀ u ∈ userNames p.shared.connected, p.shared.tree.get (usersPos cwd ++ [u]) = some .dir :=
  fun _ hu => (h.invariant_of_guard (AllBacked.init t)
    (fun _ _ _ hI hG hs => hI.step hG hs) hG).registered hq hu

theorem validName_alice : ValidName (cstring "alice") := by decide

theorem alice_registered :
    let p := [.spawn connectAlice, .run 0 (posix []), .run 0 (posix []), .run 0 (posix [])].foldl
      server.move (initialPool aliceTree)
    ∀ u ∈ userNames p.shared.connected, p.shared.tree.get (usersPos [] ++ [u]) = some .dir := by
  refine registered_of_backed (server.run_schedule_in (C := PosixMove []) _ _ ?_) (by decide)
    (by decide)
  simp [PosixMove, SysCalls.le_refl, connectAlice, UserRequest.user, validName_alice]

/-- A whole UNREGISTER between the check of CONNECT and its append. -/
theorem connect_outlives_unregister :
    ¬ ∀ (cwd : Pos) (t : Tree) (steps : List (ServerPool × ServerMove)) (p : ServerPool),
      Run (server.StepIn (PosixMove cwd)) (initialPool t) steps p → p.Quiescent →
        ∀ u ∈ userNames p.shared.connected,
          p.shared.tree.get (usersPos cwd ++ [u]) = some .dir := by
  intro h
  have hrun := server.run_schedule_in (initialPool aliceTree) (C := PosixMove [])
    [.spawn connectAlice, .spawn (.unregister (cstring "alice")),
      .run 0 (posix []), .run 0 (posix []),
      .run 1 (posix []), .run 1 (posix []), .run 1 (posix []), .run 0 (posix [])]
    (by simp [PosixMove, SysCalls.le_refl, connectAlice, UserRequest.user, validName_alice])
  exact absurd (h [] _ _ _ hrun (by decide) (cstring "alice") (by decide)) (by decide)

end DistributedSystems.Lab
