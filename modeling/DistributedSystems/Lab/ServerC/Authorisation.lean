import DistributedSystems.Lab.ServerC.Server

/-!
# Authorisation

The operations on files and the listings are documented to answer 1 to a caller who is not
registered and 2 to one who is not connected. PUBLISH makes both checks. The other three make
neither: they answer only 0, 3 or 4, so they treat a caller as documented exactly when there is
nothing to refuse (`authorised_iff`).
-/

namespace DistributedSystems.Lab

open Fs Support

/-- The operations that only a registered and connected caller may have performed. -/
inductive FileOperation
  | publish (userName fileName fileDescription : Line)
  | delete (userName fileName : Line)
  | listUsers (userName : Line)
  | listContent (useropName userName : Line)

namespace FileOperation

def caller : FileOperation → Bytes
  | publish userName _ _ => userName.text
  | delete userName _ => userName.text
  | listUsers userName => userName.text
  | listContent useropName _ => useropName.text

def operation : FileOperation → Operation
  | publish userName fileName fileDescription =>
    .change (.publish userName fileName fileDescription)
  | delete userName fileName => .change (.delete userName fileName)
  | listUsers userName => .listUsers userName
  | listContent useropName userName => .listContent useropName userName

end FileOperation

/-- The reply to a caller who may not have the operation performed is the documented status and
nothing else, and no file changes. -/
structure Authorised (cwd : Pos) (s : Store) (u : Bytes) (result : Bytes × Store) : Prop where
  notRegistered : ¬ Listed cwd s.tree u →
    result.1 = htonl userNotRegistered ∧ result.2.tree = s.tree
  notConnected : Listed cwd s.tree u → u ∉ userNames s.connected →
    result.1 = htonl userNotConnected ∧ result.2.tree = s.tree

variable {cwd : Pos} {allocated : Bool} {address : Option Bytes} {s : Store}

theorem publishFile.act_authorised (u f d : Line) :
    Authorised cwd s u.text
      ((Operation.change (.publish u f d)).run (posix cwd) allocated address s) where
  notRegistered h := by
    have h1 : isusrRegistered (posix cwd) s.tree u.text ≠ 1 :=
      fun h1 => h (isusrRegistered_eq_one_iff.1 h1)
    simp [Operation.run, serve, publishFile.act, h1]
  notConnected hl hu := by
    have h1 := isusrRegistered_eq_one_iff.2 hl
    simp [Operation.run, serve, publishFile.act, h1, hu]

/-- A reply that starts with one of the statuses that need no check. -/
def Unchecked (sent : Bytes) : Prop := ∃ k ∈ [(0 : Int), 3, 4], ∃ rest, sent = htonl k ++ rest

theorem Unchecked.ne_htonl {sent : Bytes} (h : Unchecked sent) :
    sent ≠ htonl userNotRegistered ∧ sent ≠ htonl userNotConnected := by
  obtain ⟨k, hk, rest, rfl⟩ := h
  have hhead : ∀ status : Int, htonl k ++ rest = htonl status → htonl k = htonl status := by
    intro status he
    have htake := congrArg (List.take 4) he
    simpa [htonl] using htake
  have hne : htonl k ≠ htonl userNotRegistered ∧ htonl k ≠ htonl userNotConnected := by
    simp only [List.mem_cons, List.not_mem_nil, or_false] at hk
    rcases hk with rfl | rfl | rfl <;> decide
  exact ⟨fun he => hne.1 (hhead _ he), fun he => hne.2 (hhead _ he)⟩

theorem Unchecked.status {k : Int} (hk : k ∈ [(0 : Int), 3, 4]) : Unchecked (htonl k) :=
  ⟨k, hk, [], by simp⟩

theorem deleteFile.act_unchecked (c : SysCalls) (u f : Line) (s : Store) :
    Unchecked (htonl (deleteFile.act c u f s).1) := by
  refine .status ?_
  simp only [deleteFile.act]
  split_ifs <;> (try split) <;> simp

theorem listUsers.act_unchecked (allocated : Bool) (s : Store) :
    Unchecked (listUsers.act allocated s) := by
  unfold listUsers.act
  split_ifs
  · exact ⟨0, by simp, _, List.append_assoc _ _ _⟩
  · exact .status (by simp)

theorem listContent.act_unchecked (c : SysCalls) (u : Bytes) (s : Store) :
    Unchecked (listContent.act c u s) := by
  unfold listContent.act
  split_ifs
  · split
    · exact .status (by simp)
    · exact ⟨0, by simp, _, List.append_assoc _ _ _⟩
  · exact .status (by simp)

/-- An operation that makes no check treats a caller as documented only when none is needed. -/
theorem Unchecked.authorised_only {u : Bytes} {result : Bytes × Store} (h : Unchecked result.1) :
    Authorised cwd s u result ↔ Listed cwd s.tree u ∧ u ∈ userNames s.connected := by
  constructor
  · intro ha
    have hl : Listed cwd s.tree u := by
      by_contra hl
      exact h.ne_htonl.1 (ha.notRegistered hl).1
    refine ⟨hl, ?_⟩
    by_contra hu
    exact h.ne_htonl.2 (ha.notConnected hl hu).1
  · rintro ⟨hl, hu⟩
    exact ⟨fun hn => absurd hl hn, fun _ hn => absurd hu hn⟩

/-- **Authorisation** holds of PUBLISH always, and of the other three operations exactly when the
caller is registered and connected. -/
theorem authorised_iff (op : FileOperation) :
    Authorised cwd s op.caller (op.operation.run (posix cwd) allocated address s) ↔
      (∃ u f d, op = .publish u f d) ∨
        (Listed cwd s.tree op.caller ∧ op.caller ∈ userNames s.connected) := by
  cases op with
  | publish u f d => exact iff_of_true (publishFile.act_authorised u f d) (Or.inl ⟨u, f, d, rfl⟩)
  | delete u f => simpa using (deleteFile.act_unchecked (posix cwd) u f s).authorised_only
  | listUsers u => simpa using (listUsers.act_unchecked allocated s).authorised_only
  | listContent o u => simpa using (listContent.act_unchecked (posix cwd) u.text s).authorised_only

/-- A user who has disconnected can still delete a file. -/
theorem disconnected_deletes :
    ¬ ∀ (cwd : Pos) (allocated : Bool) (address : Option Bytes) (s : Store) (op : FileOperation),
      ServerReaches cwd s →
        Authorised cwd s op.caller (op.operation.run (posix cwd) allocated address s) := by
  intro h
  let u := Line.of (cstring "alice")
  let f := Line.of (cstring "notes")
  let address := some (cstring "127.0.0.1")
  let s₁ := (serve (posix []) address (.register u) (initP2pService (posix []) .empty)).2
  let s₂ := (serve (posix []) address (.connect u (Line.of (cstring "4200"))) s₁).2
  let s₃ := (serve (posix []) address (.publish u f (Line.of (cstring "text"))) s₂).2
  let s₄ := (serve (posix []) address (.disconnect u) s₃).2
  have hreach : ServerReaches [] s₄ := by
    have h₁ : ServerReaches [] s₁ :=
      (Reachable.of_init ⟨.empty, rfl⟩).snoc ⟨address, .register u⟩ ⟨by decide, rfl⟩
    have h₂ : ServerReaches [] s₂ :=
      h₁.snoc ⟨address, .connect u (Line.of (cstring "4200"))⟩ ⟨by decide, rfl⟩
    have h₃ : ServerReaches [] s₃ :=
      h₂.snoc ⟨address, .publish u f (Line.of (cstring "text"))⟩ ⟨by decide, rfl⟩
    exact h₃.snoc ⟨address, .disconnect u⟩ ⟨by decide, rfl⟩
  have hauth := h [] true address s₄ (.delete u f) hreach
  have hgone := (hauth.notConnected (by decide) (by decide)).2
  exact absurd hgone (by decide)

end DistributedSystems.Lab
