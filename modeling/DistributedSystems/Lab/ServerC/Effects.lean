import DistributedSystems.Lab.Lib.UserPaths

/-!
# What the handlers do

First, for any system calls, the outcomes of each handler with the conditions they come under; every
later proof about a handler goes through these. Then, for POSIX calls, exactly which requests leave
the store as it was: `Idle` and `serve_eq_self_iff`.
-/

namespace DistributedSystems.Lab

open Fs

/-- The path that PUBLISH opens and DELETE removes. -/
def filePath (userName fileName : Line) : Bytes :=
  strncat (userDirPath userName.text) fileName.text fileName.length

/-- The bytes that PUBLISH writes. -/
def description (fileDescription : Line) : Bytes :=
  fileDescription.text.take fileDescription.length

/-! ## Outcomes -/

section Outcomes

variable (c : SysCalls) (s : Store)

theorem registerUser.act_cases (u : Bytes) :
    (∃ t, isusrRegistered c s.tree u = 0 ∧ c.mkdir s.tree (userPath u) = some t ∧
      registerUser.act c u s = (success, { s with tree := t })) ∨
    ((isusrRegistered c s.tree u ≠ 0 ∨ c.mkdir s.tree (userPath u) = none) ∧
      (registerUser.act c u s).1 ≠ success ∧ (registerUser.act c u s).2 = s) := by
  unfold registerUser.act
  by_cases h0 : isusrRegistered c s.tree u = 0
  · cases hm : c.mkdir s.tree (userPath u) with
    | none => exact Or.inr ⟨Or.inr rfl, by simp [h0]⟩
    | some t => exact Or.inl ⟨t, h0, rfl, by simp [h0]⟩
  · refine Or.inr ⟨Or.inl h0, ?_⟩
    rw [if_neg h0]
    split <;> simp

theorem unregisterUser.act_cases (u : Bytes) :
    (isusrRegistered c s.tree u = 1 ∧ (removeDirectory c s.tree (userPath u)).1 ≠ -1 ∧
      unregisterUser.act c u s = (success,
        { tree := (removeDirectory c s.tree (userPath u)).2,
          connected := deleteElement u s.connected })) ∨
    (isusrRegistered c s.tree u = 1 ∧ (removeDirectory c s.tree (userPath u)).1 = -1 ∧
      unregisterUser.act c u s = (otherError2,
        { s with tree := (removeDirectory c s.tree (userPath u)).2 })) ∨
    (isusrRegistered c s.tree u ≠ 1 ∧
      (unregisterUser.act c u s).1 ≠ success ∧ (unregisterUser.act c u s).2 = s) := by
  unfold unregisterUser.act
  by_cases h1 : isusrRegistered c s.tree u = 1
  · by_cases hr : (removeDirectory c s.tree (userPath u)).1 = -1
    · exact Or.inr (Or.inl ⟨h1, hr, by simp [h1, hr]⟩)
    · exact Or.inl ⟨h1, hr, by simp [h1, hr]⟩
  · refine Or.inr (Or.inr ⟨h1, ?_⟩)
    rw [if_neg h1]
    split <;> simp

theorem connectUser.act_cases (address : Option Bytes) (u p : Bytes) :
    (∃ a, isusrRegistered c s.tree u = 1 ∧ u ∉ userNames s.connected ∧ address = some a ∧
      connectUser.act c address u p s =
        (success, { s with connected := addElement ⟨u, p, a⟩ s.connected })) ∨
    ((isusrRegistered c s.tree u ≠ 1 ∨ u ∈ userNames s.connected ∨ address = none) ∧
      (connectUser.act c address u p s).1 ≠ success ∧ (connectUser.act c address u p s).2 = s) := by
  simp only [connectUser.act, findElementByname_ne_zero_iff]
  by_cases h1 : isusrRegistered c s.tree u = 1
  · by_cases hu : u ∈ userNames s.connected
    · exact Or.inr ⟨Or.inr (Or.inl hu), by simp [h1, hu]⟩
    · cases address with
      | none => exact Or.inr ⟨Or.inr (Or.inr rfl), by simp [h1, hu]⟩
      | some a => exact Or.inl ⟨a, h1, hu, rfl, by simp [h1, hu]⟩
  · refine Or.inr ⟨Or.inl h1, ?_⟩
    rw [if_neg h1]
    split <;> simp

/-- The three statuses of a CONNECT that is refused. -/
theorem connectUser.act_refused {address : Option Bytes} {u p : Bytes}
    (h : (connectUser.act c address u p s).1 ≠ success) :
    (connectUser.act c address u p s).1 = 1 ∨ (connectUser.act c address u p s).1 = 2 ∨
      (connectUser.act c address u p s).1 = 3 := by
  unfold connectUser.act at h ⊢
  dsimp only at h ⊢
  by_cases h1 : isusrRegistered c s.tree u = 1
  · rw [if_pos h1] at h ⊢
    by_cases hu : findElementByname s.connected u ≠ 0
    · rw [if_pos hu]
      exact Or.inr (Or.inl rfl)
    · rw [if_neg hu] at h ⊢
      cases address with
      | none => exact Or.inr (Or.inr rfl)
      | some a => exact absurd rfl h
  · rw [if_neg h1]
    by_cases h0 : isusrRegistered c s.tree u = 0
    · rw [if_pos h0]
      exact Or.inl rfl
    · rw [if_neg h0]
      exact Or.inr (Or.inr rfl)

theorem disconnectUser.act_cases (u : Bytes) :
    (isusrRegistered c s.tree u = 1 ∧ u ∈ userNames s.connected ∧
      disconnectUser.act c u s =
        (success, { s with connected := deleteElement u s.connected })) ∨
    ((isusrRegistered c s.tree u ≠ 1 ∨ u ∉ userNames s.connected) ∧
      (disconnectUser.act c u s).1 ≠ success ∧ (disconnectUser.act c u s).2 = s) := by
  simp only [disconnectUser.act, findElementByname_ne_zero_iff]
  by_cases h1 : isusrRegistered c s.tree u = 1
  · by_cases hu : u ∈ userNames s.connected
    · exact Or.inl ⟨h1, hu, by simp [h1, hu]⟩
    · exact Or.inr ⟨Or.inr hu, by simp [h1, hu]⟩
  · refine Or.inr ⟨Or.inl h1, ?_⟩
    rw [if_neg h1]
    split <;> simp

/-- The checks that PUBLISH makes before it opens the file. -/
structure Publishes (u f : Bytes) : Prop where
  registered : isusrRegistered c s.tree u = 1
  connected : u ∈ userNames s.connected
  absent : fileExists c s.tree f (userDirPath u) = 0

theorem publishFile.act_cases (u f d : Line) :
    (∃ t fd t', Publishes c s u.text f.text ∧ c.openCreate s.tree (filePath u f) = some (t, fd) ∧
      c.write t fd (description d) = some t' ∧
      publishFile.act c u f d s = (success, { s with tree := t' })) ∨
    (∃ t fd, Publishes c s u.text f.text ∧ c.openCreate s.tree (filePath u f) = some (t, fd) ∧
      c.write t fd (description d) = none ∧
      publishFile.act c u f d s = (otherError4, { s with tree := t })) ∨
    ((¬ Publishes c s u.text f.text ∨ c.openCreate s.tree (filePath u f) = none) ∧
      (publishFile.act c u f d s).1 ≠ success ∧ (publishFile.act c u f d s).2 = s) := by
  have hpath : strncat (userDirPath u.text) f.text f.length = filePath u f := rfl
  have hdata : d.text.take d.length = description d := rfl
  simp only [publishFile.act, findElementByname_ne_zero_iff, hpath, hdata]
  by_cases h1 : isusrRegistered c s.tree u.text = 1
  · by_cases hu : u.text ∈ userNames s.connected
    · by_cases h0 : fileExists c s.tree f.text (userDirPath u.text) = 0
      · rw [if_pos h1, if_pos hu, if_pos h0]
        cases ho : c.openCreate s.tree (filePath u f) with
        | none => exact Or.inr (Or.inr ⟨Or.inr rfl, by simp⟩)
        | some r =>
          obtain ⟨t, fd⟩ := r
          cases hw : c.write t fd (description d) with
          | none => exact Or.inr (Or.inl ⟨t, fd, ⟨h1, hu, h0⟩, rfl, hw, by simp [hw]⟩)
          | some t' => exact Or.inl ⟨t, fd, t', ⟨h1, hu, h0⟩, rfl, hw, by simp [hw]⟩
      · refine Or.inr (Or.inr ⟨Or.inl fun h => h0 h.absent, ?_⟩)
        rw [if_pos h1, if_pos hu, if_neg h0]
        split <;> simp
    · exact Or.inr (Or.inr ⟨Or.inl fun h => hu h.connected, by simp [h1, hu]⟩)
  · exact Or.inr (Or.inr ⟨Or.inl fun h => h1 h.registered, by simp [h1]⟩)

theorem deleteFile.act_cases (u f : Line) :
    (∃ t, fileExists c s.tree f.text (userDirPath u.text) = 1 ∧
      c.remove s.tree (filePath u f) = some t ∧
      deleteFile.act c u f s = (success, { s with tree := t })) ∨
    ((fileExists c s.tree f.text (userDirPath u.text) ≠ 1 ∨
        c.remove s.tree (filePath u f) = none) ∧
      (deleteFile.act c u f s).1 ≠ success ∧ (deleteFile.act c u f s).2 = s) := by
  have hpath : strncat (userDirPath u.text) f.text f.length = filePath u f := rfl
  simp only [deleteFile.act, hpath]
  by_cases h1 : fileExists c s.tree f.text (userDirPath u.text) = 1
  · cases hr : c.remove s.tree (filePath u f) with
    | none => exact Or.inr ⟨Or.inr rfl, by simp [h1]⟩
    | some t => exact Or.inl ⟨t, h1, rfl, by simp [h1]⟩
  · refine Or.inr ⟨Or.inl h1, ?_⟩
    rw [if_neg h1]
    split <;> simp

/-- What a request does to the list of connected users: nothing, or it appends or deletes a record
of its user. -/
theorem connected_serve (address : Option Bytes) (r : Request) :
    (serve c address r s).2.connected = s.connected ∨
    (∃ d : UserServerData, d.name = r.user ∧ r.user ∉ userNames s.connected ∧
      (serve c address r s).2.connected = addElement d s.connected) ∨
    (serve c address r s).2.connected = deleteElement r.user s.connected := by
  cases r with
  | register u =>
    dsimp only [serve]
    rcases registerUser.act_cases c s u.text with ⟨t, -, -, heq⟩ | ⟨-, -, heq⟩ <;> rw [heq] <;>
      exact Or.inl rfl
  | unregister u =>
    dsimp only [serve]
    rcases unregisterUser.act_cases c s u.text with ⟨-, -, heq⟩ | ⟨-, -, heq⟩ | ⟨-, -, heq⟩
    · rw [heq]
      exact Or.inr (Or.inr rfl)
    · rw [heq]
      exact Or.inl rfl
    · rw [heq]
      exact Or.inl rfl
  | connect u p =>
    dsimp only [serve]
    rcases connectUser.act_cases c s address u.text p.text with ⟨a, -, hu, -, heq⟩ | ⟨-, -, heq⟩
    · rw [heq]
      exact Or.inr (Or.inl ⟨⟨u.text, p.text, a⟩, rfl, hu, rfl⟩)
    · rw [heq]
      exact Or.inl rfl
  | disconnect u =>
    dsimp only [serve]
    rcases disconnectUser.act_cases c s u.text with ⟨-, -, heq⟩ | ⟨-, -, heq⟩
    · rw [heq]
      exact Or.inr (Or.inr rfl)
    · rw [heq]
      exact Or.inl rfl
  | publish u f d =>
    dsimp only [serve]
    rcases publishFile.act_cases c s u f d with
      ⟨t, fd, t', -, -, -, heq⟩ | ⟨t, fd, -, -, -, heq⟩ | ⟨-, -, heq⟩ <;> rw [heq] <;>
      exact Or.inl rfl
  | delete u f =>
    dsimp only [serve]
    rcases deleteFile.act_cases c s u f with ⟨t, -, -, heq⟩ | ⟨-, -, heq⟩ <;> rw [heq] <;>
      exact Or.inl rfl

end Outcomes

/-! ## Requests without an effect -/

/-- The requests that leave the store as it is, on a POSIX system. -/
def Idle (cwd : Pos) (address : Option Bytes) (s : Store) : Request → Prop
  | .register u =>
    isusrRegistered (posix cwd) s.tree u.text ≠ 0 ∨
      (posix cwd).mkdir s.tree (userPath u.text) = none
  | .unregister u =>
    ¬ Listed cwd s.tree u.text ∨ (∃ old, s.tree.get (usersPos cwd ++ [u.text]) = some (.file old)) ∨
      (u.text = dot ∧ s.tree.names (usersPos cwd) = [])
  | .connect u _ =>
    ¬ Listed cwd s.tree u.text ∨ u.text ∈ userNames s.connected ∨ address = none
  | .disconnect u => ¬ Listed cwd s.tree u.text ∨ u.text ∉ userNames s.connected
  | .publish u f d =>
    ¬ Publishes (posix cwd) s u.text f.text ∨
      -- what is opened was there before and starts with what is written to it
      ∀ t fd, (posix cwd).openCreate s.tree (filePath u f) = some (t, fd) →
        ∃ old, s.tree.get fd = some (.file old) ∧ description d <+: old
  | .delete u f =>
    fileExists (posix cwd) s.tree f.text (userDirPath u.text) ≠ 1 ∨
      (posix cwd).remove s.tree (filePath u f) = none

section Idle

variable {cwd : Pos} {t : Tree} {u : Bytes}

/-- A removal through a dot name takes away whatever the directory lists first. -/
theorem removeDirectory_dots_changes (h : t.get (usersPos cwd) = some .dir)
    (hu : u = dot ∨ u = dotDot) (hne : ¬ (u = dot ∧ t.names (usersPos cwd) = [])) :
    ∃ q e, t.get q = some e ∧ (removeDirectory (posix cwd) t (userPath u)).2.get q = none := by
  obtain ⟨p, hp, hd, hsteady, hnames⟩ : ∃ p, resolve cwd t (userPath u) = some p ∧
      t.get p = some .dir ∧ (∀ n e, t.get (p ++ [n]) = some e →
        Steady cwd t (userPath u ++ slash :: n) (p ++ [n])) ∧ t.names p ≠ [] := by
    rcases hu with rfl | rfl
    · exact ⟨_, resolve_userPath_dot h, h,
        fun n e he => (steady_userPath_dot h).snoc (userPath_ne_nil dot) he,
        fun hnil => hne ⟨rfl, hnil⟩⟩
    · refine ⟨_, resolve_userPath_dotDot h, Tree.get_parent h,
        fun n e he => steady_userPath_dotDot h he, fun hnil => ?_⟩
      have hnone := Tree.names_eq_nil_iff.1 hnil users
      rw [← usersPos, h] at hnone
      cases hnone
  obtain ⟨n, ns, hns⟩ := List.exists_cons_of_ne_nil hnames
  obtain ⟨e, he⟩ := Option.isSome_iff_exists.1
    (Tree.mem_names.1 (hns ▸ List.mem_cons_self : n ∈ t.names p))
  exact ⟨p ++ [n], e, he,
    removeDirectory_changes (userPath_ne_nil u) hp hd hns (hsteady n e he)⟩

/-- The directory of a listed name goes. -/
theorem removeDirectory_userPath (hu : ValidName u)
    (hd : t.get (usersPos cwd ++ [u]) = some .dir) :
    (removeDirectory (posix cwd) t (userPath u)).1 = 0 :=
  removeDirectory_succeeds (userPath_ne_nil u) (ends_userPath hu) (steady_userPath hu hd) hd

theorem removeDirectory_dot_of_empty (h : t.get (usersPos cwd) = some .dir)
    (hnil : t.names (usersPos cwd) = []) :
    removeDirectory (posix cwd) t (userPath dot) = (-1, t) := by
  have ho : (posix cwd).opendir t (userPath dot) = some (listing t (usersPos cwd)) :=
    posix.opendir_eq_some_iff.2 ⟨_, resolve_userPath_dot h, h, rfl⟩
  simp only [removeDirectory, removeDirectoryAux, ho, removeEntries_listing, hnil, removeEntries,
    rmdir_userPath_dots (Or.inl rfl), if_true]

/-- When UNREGISTER removes nothing. -/
theorem removeDirectory_eq_self_iff (h : Listed cwd t u) :
    (removeDirectory (posix cwd) t (userPath u)).2 = t ↔
      (∃ old, t.get (usersPos cwd ++ [u]) = some (.file old)) ∨
        (u = dot ∧ t.names (usersPos cwd) = []) := by
  have hdots : u = dot ∨ u = dotDot → ¬ (u = dot ∧ t.names (usersPos cwd) = []) →
      (removeDirectory (posix cwd) t (userPath u)).2 ≠ t := by
    intro hu hne hsame
    obtain ⟨q, e, he, hgone⟩ := removeDirectory_dots_changes h.1 hu hne
    rw [hsame, he] at hgone
    cases hgone
  rcases listing_names u h.2 with hu | hu | hu
  · refine ⟨fun hsame => Or.inr ?_, ?_⟩
    · by_contra hne
      exact hdots (Or.inl hu) hne hsame
    · rintro (⟨old, hold⟩ | ⟨rfl, hnil⟩)
      · exact absurd hu (Tree.validName_of_get hold).2.2.2.1
      · rw [removeDirectory_dot_of_empty h.1 hnil]
  · refine ⟨fun hsame => absurd hsame ?_, ?_⟩
    · apply hdots (Or.inr hu)
      intro hd
      exact absurd (hu.symm.trans hd.1) (by decide)
    · rintro (⟨old, hold⟩ | ⟨hd, -⟩)
      · exact absurd hu (Tree.validName_of_get hold).2.2.2.2
      · exact absurd (hu.symm.trans hd) (by decide)
  · have hsome : (t.get (usersPos cwd ++ [u])).isSome := by
      rcases mem_listing_iff.1 h.2 with hd | hd | hs
      · exact absurd hd hu.2.2.2.1
      · exact absurd hd hu.2.2.2.2
      · exact hs
    obtain ⟨e, he⟩ := Option.isSome_iff_exists.1 hsome
    cases e with
    | file old =>
      refine ⟨fun _ => Or.inl ⟨old, he⟩, fun _ => ?_⟩
      rw [removeDirectory_of_not_dir (SysCalls.le_refl _) fun p hp => ?_]
      rw [resolve_userPath_eq_some hu hp, he]
      simp
    | dir =>
      have hrem := removeDirectory_removal (SysCalls.le_refl _) (userPath_ne_nil u)
        (resolve_userPath hu he)
      have hgone := hrem.gone (removeDirectory_userPath hu he)
      constructor
      · intro hsame
        rw [hsame, he] at hgone
        cases hgone
      · rintro (⟨old, hold⟩ | ⟨hd, -⟩)
        · rw [he] at hold; cases hold
        · exact absurd hd hu.2.2.2.1

variable {address : Option Bytes} {s : Store}

theorem Store.with_tree_eq_iff {t : Tree} : { s with tree := t } = s ↔ t = s.tree := by
  cases s; simp

theorem Store.with_connected_eq_iff {l : List UserServerData} :
    { s with connected := l } = s ↔ l = s.connected := by
  cases s; simp

theorem registerUser.act_eq_self_iff (u : Bytes) :
    (registerUser.act (posix cwd) u s).2 = s ↔
      isusrRegistered (posix cwd) s.tree u ≠ 0 ∨ (posix cwd).mkdir s.tree (userPath u) = none := by
  rcases registerUser.act_cases (posix cwd) s u with ⟨t, h0, hm, hact⟩ | ⟨hidle, -, hsame⟩
  · obtain ⟨p, n, -, hcr⟩ := posix.mkdir_eq_some_iff.1 hm
    rw [hact, Store.with_tree_eq_iff]
    simp [h0, hm, Tree.create_ne hcr]
  · exact iff_of_true hsame hidle

theorem unregisterUser.act_eq_self_iff (u : Bytes) :
    (unregisterUser.act (posix cwd) u s).2 = s ↔
      ¬ Listed cwd s.tree u ∨ (∃ old, s.tree.get (usersPos cwd ++ [u]) = some (.file old)) ∨
        (u = dot ∧ s.tree.names (usersPos cwd) = []) := by
  rcases unregisterUser.act_cases (posix cwd) s u with ⟨h1, hr, hact⟩ | ⟨h1, hr, hact⟩ |
    ⟨h1, -, hsame⟩
  · have hl := isusrRegistered_eq_one_iff.1 h1
    -- a removal that succeeds has removed something
    have hchanged : (removeDirectory (posix cwd) s.tree (userPath u)).2 ≠ s.tree := by
      intro hsame
      rcases (removeDirectory_eq_self_iff hl).1 hsame with ⟨old, hold⟩ | ⟨rfl, hnil⟩
      · apply hr
        rw [removeDirectory_of_not_dir (SysCalls.le_refl _) fun p hp => ?_]
        rw [resolve_userPath_eq_some (Tree.validName_of_get hold) hp, hold]
        simp
      · exact hr (by rw [removeDirectory_dot_of_empty hl.1 hnil])
    have hiff := removeDirectory_eq_self_iff hl
    rw [hact, Store.mk.injEq, ← hiff]
    simp [hchanged, hl]
  · have hl := isusrRegistered_eq_one_iff.1 h1
    rw [hact, Store.with_tree_eq_iff, removeDirectory_eq_self_iff hl]
    simp [hl]
  · exact iff_of_true hsame (Or.inl fun hl => h1 (isusrRegistered_eq_one_iff.2 hl))

theorem connectUser.act_eq_self_iff (u p : Bytes) :
    (connectUser.act (posix cwd) address u p s).2 = s ↔
      ¬ Listed cwd s.tree u ∨ u ∈ userNames s.connected ∨ address = none := by
  rw [← isusrRegistered_eq_one_iff]
  rcases connectUser.act_cases (posix cwd) s address u p with ⟨a, h1, hu, rfl, hact⟩ |
    ⟨hidle, -, hsame⟩
  · rw [hact, Store.with_connected_eq_iff]
    simp [h1, hu, addElement_ne]
  · exact iff_of_true hsame hidle

theorem disconnectUser.act_eq_self_iff (u : Bytes) :
    (disconnectUser.act (posix cwd) u s).2 = s ↔
      ¬ Listed cwd s.tree u ∨ u ∉ userNames s.connected := by
  rw [← isusrRegistered_eq_one_iff]
  rcases disconnectUser.act_cases (posix cwd) s u with ⟨h1, hu, hact⟩ | ⟨hidle, -, hsame⟩
  · rw [hact, Store.with_connected_eq_iff, deleteElement_eq_self_iff]
    simp [h1, hu]
  · exact iff_of_true hsame hidle

/-- Opening a file and writing to it touches that file only. -/
theorem get_openCreate_write {t t' : Tree} {path data : Bytes} {fd q : Pos}
    (ho : (posix cwd).openCreate t path = some (t', fd)) (hq : q ≠ fd) :
    (t'.write fd data).get q = t.get q := by
  rw [Tree.get_write, if_neg hq]
  obtain ⟨p, n, -, rfl, ⟨old, hold, rfl⟩ | hcr⟩ := posix.openCreate_eq_some_iff.1 ho
  · rfl
  · rw [Tree.get_create hcr, if_neg hq]

/-- It leaves the file as it was only if the file was there and starts with what is written. -/
theorem get_openCreate_write_self_iff {t t' : Tree} {path data : Bytes} {fd : Pos}
    (ho : (posix cwd).openCreate t path = some (t', fd)) :
    (t'.write fd data).get fd = t.get fd ↔ ∃ old, t.get fd = some (.file old) ∧ data <+: old := by
  rw [Tree.get_write, if_pos rfl]
  obtain ⟨p, n, -, rfl, ⟨old, hold, rfl⟩ | hcr⟩ := posix.openCreate_eq_some_iff.1 ho
  · simp [hold, Entry.overwritten, overwrite_eq_self_iff]
  · have hnew := (Tree.create_isSome_iff.1 (Option.isSome_of_eq_some hcr)).2.1
    rw [Tree.get_create hcr, if_pos rfl, hnew]
    simp

theorem openCreate_write_eq_self_iff {t t' : Tree} {path data : Bytes} {fd : Pos}
    (ho : (posix cwd).openCreate t path = some (t', fd)) :
    t'.write fd data = t ↔ ∃ old, t.get fd = some (.file old) ∧ data <+: old := by
  constructor
  · intro hsame
    exact (get_openCreate_write_self_iff ho).1 (by rw [hsame])
  · rintro ⟨old, hold, hpre⟩
    obtain ⟨p, n, -, rfl, ⟨-, -, rfl⟩ | hcr⟩ := posix.openCreate_eq_some_iff.1 ho
    · rwa [Tree.write_eq_self_iff hold, overwrite_eq_self_iff]
    · rw [(Tree.create_isSome_iff.1 (Option.isSome_of_eq_some hcr)).2.1] at hold
      cases hold

theorem publishFile.act_eq_self_iff (u f d : Line) :
    (publishFile.act (posix cwd) u f d s).2 = s ↔
      ¬ Publishes (posix cwd) s u.text f.text ∨
        ∀ t fd, (posix cwd).openCreate s.tree (filePath u f) = some (t, fd) →
          ∃ old, s.tree.get fd = some (.file old) ∧ description d <+: old := by
  rcases publishFile.act_cases (posix cwd) s u f d with ⟨t, fd, t', hp, ho, hw, hact⟩ |
    ⟨t, fd, hp, ho, hw, hact⟩ | ⟨hidle, -, hsame⟩
  · obtain rfl : t.write fd (description d) = t' := Option.some.inj hw
    rw [hact, Store.with_tree_eq_iff, openCreate_write_eq_self_iff ho]
    simp [hp, ho]
  · cases hw
  · refine iff_of_true hsame (hidle.imp_right fun hnone t fd ho => ?_)
    rw [hnone] at ho
    cases ho

theorem deleteFile.act_eq_self_iff (u f : Line) :
    (deleteFile.act (posix cwd) u f s).2 = s ↔
      fileExists (posix cwd) s.tree f.text (userDirPath u.text) ≠ 1 ∨
        (posix cwd).remove s.tree (filePath u f) = none := by
  rcases deleteFile.act_cases (posix cwd) s u f with ⟨t, h1, hr, hact⟩ | ⟨hidle, -, hsame⟩
  · obtain ⟨p, n, e, -, -, he, her⟩ := posix.remove_erases hr
    rw [hact, Store.with_tree_eq_iff]
    simp [h1, hr, Tree.erase_ne (by simp) he her]
  · exact iff_of_true hsame hidle

/-- **The requests without an effect** are exactly the idle ones. -/
theorem serve_eq_self_iff (r : Request) :
    (serve (posix cwd) address r s).2 = s ↔ Idle cwd address s r := by
  cases r with
  | register u => exact registerUser.act_eq_self_iff u.text
  | unregister u => exact unregisterUser.act_eq_self_iff u.text
  | connect u p => exact connectUser.act_eq_self_iff u.text p.text
  | disconnect u => exact disconnectUser.act_eq_self_iff u.text
  | publish u f d => exact publishFile.act_eq_self_iff u f d
  | delete u f => exact deleteFile.act_eq_self_iff u f

end Idle

end DistributedSystems.Lab
