import DistributedSystems.Lab.ServerC.Server

/-!
# Isolation of users

A request should change nothing but the subtree of the child of `./Users` that has the user's name,
and the user's record. The handlers look names up as directory entries but act through paths, so
that holds exactly for the requests that have no effect and for those whose paths stay inside that
subtree (`isolated_serve_iff`).
-/

namespace DistributedSystems.Lab

open Fs Support

/-- `s'` differs from `s` at most in the subtree of the child of `./Users` named `u` and in the
records of `u`. -/
structure Isolated (cwd : Pos) (u : Bytes) (s s' : Store) : Prop where
  tree : ∀ p, ¬ (usersPos cwd ++ [u]) <+: p → s'.tree.get p = s.tree.get p
  connected : s'.connected.filter (·.name ≠ u) = s.connected.filter (·.name ≠ u)

/-- The requests whose paths stay in the directory of their user. -/
def Own (cwd : Pos) (s : Store) : Request → Prop
  | .register u => slash ∉ u.text
  | .unregister u => u.text ≠ dot ∧ u.text ≠ dotDot
  | .connect _ _ => True
  | .disconnect _ => True
  | .publish u f _ => ∀ t fd, (posix cwd).openCreate s.tree (filePath u f) = some (t, fd) →
      (usersPos cwd ++ [u.text]) <+: fd
  | .delete u _ => ValidName u.text

variable {cwd : Pos} {address : Option Bytes} {s : Store}

theorem Isolated.refl (cwd : Pos) (u : Bytes) (s : Store) : Isolated cwd u s s :=
  ⟨fun _ _ => rfl, rfl⟩

/-- An entry outside of the subtree may not change. -/
theorem Isolated.prefix_of_changed {u : Bytes} {s' : Store} (h : Isolated cwd u s s') {p : Pos}
    (hp : s'.tree.get p ≠ s.tree.get p) : (usersPos cwd ++ [u]) <+: p := by
  by_contra hout
  exact hp (h.tree p hout)

/-- Only an ordinary name has entries in its subtree. -/
theorem validName_of_isPrefix {t : Tree} {u : Bytes} {p : Pos} (h : (usersPos cwd ++ [u]) <+: p)
    {e : Entry} (he : t.get p = some e) : ValidName u :=
  Tree.validName_of_mem he (h.subset (by simp))

/-! ## REGISTER -/

theorem registerUser.act_isolated {u : Bytes} (hu : slash ∉ u) :
    Isolated cwd u s (registerUser.act (posix cwd) u s).2 := by
  rcases registerUser.act_cases (posix cwd) s u with ⟨t, h0, hm, hact⟩ | ⟨-, -, hsame⟩
  · obtain ⟨-, hcr⟩ := create_of_mkdir_userPath hu (isusrRegistered_eq_zero_iff.1 h0).1 hm
    rw [hact]
    refine ⟨fun p hp => ?_, rfl⟩
    have hne : p ≠ usersPos cwd ++ [u] := by rintro rfl; exact hp (List.prefix_refl _)
    simp only [Tree.get_create hcr, if_neg hne]
  · rw [hsame]; exact .refl cwd u s

theorem registerUser.act_not_isolated {u : Line} (hu : slash ∈ u.text)
    (hidle : ¬ Idle cwd address s (.register u)) :
    ¬ Isolated cwd u.text s (registerUser.act (posix cwd) u.text s).2 := by
  rcases registerUser.act_cases (posix cwd) s u.text with ⟨t, h0, hm, hact⟩ | ⟨h, -, -⟩
  · obtain ⟨p, n, -, hcr⟩ := posix.mkdir_eq_some_iff.1 hm
    intro hiso
    rw [hact] at hiso
    have hnew : t.get (p ++ [n]) = some .dir := by rw [Tree.get_create hcr, if_pos rfl]
    have hold := (Tree.create_isSome_iff.1 (Option.isSome_of_eq_some hcr)).2.1
    have hpre := hiso.prefix_of_changed (p := p ++ [n]) (by simp [hnew, hold])
    exact (validName_of_isPrefix hpre hnew).2.1 hu
  · exact absurd h hidle

/-! ## UNREGISTER -/

theorem unregisterUser.act_isolated {u : Bytes} (hu : u ≠ dot ∧ u ≠ dotDot) :
    Isolated cwd u s (unregisterUser.act (posix cwd) u s).2 := by
  by_cases hl : Listed cwd s.tree u
  · rcases mem_listing_iff.1 hl.2 with h | h | h
    · exact absurd h hu.1
    · exact absurd h hu.2
    · obtain ⟨e, he⟩ := Option.isSome_iff_exists.1 h
      have hrem := removeDirectory_removal (SysCalls.le_refl (posix cwd)) (userPath_ne_nil u)
        (resolve_userPath (Tree.validName_of_get he) he)
      rcases unregisterUser.act_cases (posix cwd) s u with ⟨-, -, hact⟩ | ⟨-, -, hact⟩ |
        ⟨-, -, hsame⟩
      · rw [hact]; exact ⟨hrem.frame, filter_deleteElement u s.connected⟩
      · rw [hact]; exact ⟨hrem.frame, rfl⟩
      · rw [hsame]; exact .refl cwd u s
  · rw [(unregisterUser.act_eq_self_iff u).2 (Or.inl hl)]
    exact .refl cwd u s

theorem unregisterUser.act_not_isolated {u : Line} (hu : ¬ (u.text ≠ dot ∧ u.text ≠ dotDot))
    (hidle : ¬ Idle cwd address s (.unregister u)) :
    ¬ Isolated cwd u.text s (unregisterUser.act (posix cwd) u.text s).2 := by
  have hdots : u.text = dot ∨ u.text = dotDot := by
    by_contra h
    exact hu (not_or.1 h)
  simp only [Idle, not_or, not_not] at hidle
  obtain ⟨hl, -, hne⟩ := hidle
  obtain ⟨q, e, he, hgone⟩ := removeDirectory_dots_changes hl.1 hdots hne
  intro hiso
  have htree : (unregisterUser.act (posix cwd) u.text s).2.tree =
      (removeDirectory (posix cwd) s.tree (userPath u.text)).2 := by
    rcases unregisterUser.act_cases (posix cwd) s u.text with ⟨-, -, hact⟩ | ⟨-, -, hact⟩ |
      ⟨h1, -, -⟩
    · rw [hact]
    · rw [hact]
    · exact absurd (isusrRegistered_eq_one_iff.2 hl) h1
  have hpre := hiso.prefix_of_changed (p := q) (by rw [htree, hgone, he]; simp)
  have hn := validName_of_isPrefix hpre he
  exact hdots.elim hn.2.2.2.1 hn.2.2.2.2

/-! ## CONNECT and DISCONNECT -/

theorem connectUser.act_isolated (u p : Bytes) :
    Isolated cwd u s (connectUser.act (posix cwd) address u p s).2 := by
  rcases connectUser.act_cases (posix cwd) s address u p with ⟨a, -, -, -, hact⟩ | ⟨-, -, hsame⟩
  · rw [hact]
    exact ⟨fun _ _ => rfl, by simp [addElement]⟩
  · rw [hsame]; exact .refl cwd u s

theorem disconnectUser.act_isolated (u : Bytes) :
    Isolated cwd u s (disconnectUser.act (posix cwd) u s).2 := by
  rcases disconnectUser.act_cases (posix cwd) s u with ⟨-, -, hact⟩ | ⟨-, -, hsame⟩
  · rw [hact]
    exact ⟨fun _ _ => rfl, filter_deleteElement u s.connected⟩
  · rw [hsame]; exact .refl cwd u s

/-! ## PUBLISH -/

theorem publishFile.act_isolated {u f : Line} (d : Line)
    (hown : ∀ t fd, (posix cwd).openCreate s.tree (filePath u f) = some (t, fd) →
      (usersPos cwd ++ [u.text]) <+: fd) :
    Isolated cwd u.text s (publishFile.act (posix cwd) u f d s).2 := by
  rcases publishFile.act_cases (posix cwd) s u f d with ⟨t, fd, t', -, ho, hw, hact⟩ |
    ⟨t, fd, -, -, hw, -⟩ | ⟨-, -, hsame⟩
  · obtain rfl : t.write fd (description d) = t' := Option.some.inj hw
    rw [hact]
    refine ⟨fun p hp => get_openCreate_write ho ?_, rfl⟩
    rintro rfl
    exact hp (hown t p ho)
  · cases hw
  · rw [hsame]; exact .refl cwd u.text s

theorem publishFile.act_not_isolated {u f d : Line} (hown : ¬ Own cwd s (.publish u f d))
    (hidle : ¬ Idle cwd address s (.publish u f d)) :
    ¬ Isolated cwd u.text s (publishFile.act (posix cwd) u f d s).2 := by
  rcases publishFile.act_cases (posix cwd) s u f d with ⟨t, fd, t', hp, ho, hw, hact⟩ |
    ⟨t, fd, -, -, hw, -⟩ | ⟨h, -, -⟩
  · obtain rfl : t.write fd (description d) = t' := Option.some.inj hw
    rw [hact]
    intro hiso
    apply hown
    intro t₂ fd₂ ho₂
    obtain ⟨rfl, rfl⟩ := Prod.mk.inj (Option.some.inj (ho.symm.trans ho₂))
    refine hiso.prefix_of_changed fun hsame => hidle (Or.inr fun t₃ fd₃ ho₃ => ?_)
    obtain ⟨rfl, rfl⟩ := Prod.mk.inj (Option.some.inj (ho.symm.trans ho₃))
    exact (get_openCreate_write_self_iff ho).1 hsame
  · cases hw
  · refine absurd (h.imp_right fun hnone t fd ho => ?_) hidle
    rw [hnone] at ho
    cases ho

/-! ## DELETE -/

/-- The entry that DELETE takes away: the listed name, in the directory that the user's path leads
to. -/
theorem erase_of_remove_filePath {t t' : Tree} {u f : Line} (hf : f.length = f.text.length)
    (h1 : fileExists (posix cwd) t f.text (userDirPath u.text) = 1)
    (hr : (posix cwd).remove t (filePath u f) = some t') :
    ∃ p e, resolve cwd t (userDirPath u.text) = some p ∧ t.get (p ++ [f.text]) = some e ∧
      t.erase (p ++ [f.text]) = some t' := by
  obtain ⟨p, hp, hmem⟩ := fileExists_eq_one_iff.1 h1
  have htake : f.text.take f.length = f.text := List.take_of_length_le (by omega)
  have hslash : slash ∉ f.text := slash_notMem_of_mem_listing hmem
  have hne : f.text ≠ [] := by
    rcases listing_names _ hmem with h | h | h
    · rw [h]; decide
    · rw [h]; decide
    · exact h.1
  have hleaf : leaf t cwd (components (filePath u f)) = some (p, f.text) := by
    have := leaf_filePath (u := u.text) (f := f.text) (n := f.length) (by rwa [htake]) hp
    rwa [htake] at this
  have hstrip : stripTrailing (components (filePath u f)) = components (filePath u f) :=
    stripTrailing_filePath (by rwa [htake]) (by rwa [htake])
  obtain ⟨q, n, e, hl, -, he, her⟩ := posix.remove_erases hr
  rw [hstrip, filePath, origin_strncat, ← filePath, hleaf] at hl
  obtain ⟨rfl, rfl⟩ := Prod.mk.inj (Option.some.inj hl)
  exact ⟨p, e, hp, he, her⟩

theorem deleteFile.act_isolated {u f : Line} (hf : f.length = f.text.length)
    (hu : ValidName u.text) : Isolated cwd u.text s (deleteFile.act (posix cwd) u f s).2 := by
  rcases deleteFile.act_cases (posix cwd) s u f with ⟨t, h1, hr, hact⟩ | ⟨-, -, hsame⟩
  · obtain ⟨p, e, hp, -, her⟩ := erase_of_remove_filePath hf h1 hr
    obtain rfl := resolve_userDirPath_eq_some hu hp
    rw [hact]
    refine ⟨fun q hq => ?_, rfl⟩
    have hne : q ≠ usersPos cwd ++ [u.text] ++ [f.text] := by
      rintro rfl; exact hq (List.prefix_append _ _)
    simp only [Tree.get_erase (by simp) her, if_neg hne]
  · rw [hsame]; exact .refl cwd u.text s

theorem deleteFile.act_not_isolated {u f : Line} (hf : f.length = f.text.length)
    (hu : ¬ ValidName u.text) (hidle : ¬ Idle cwd address s (.delete u f)) :
    ¬ Isolated cwd u.text s (deleteFile.act (posix cwd) u f s).2 := by
  rcases deleteFile.act_cases (posix cwd) s u f with ⟨t, h1, hr, hact⟩ | ⟨h, -, -⟩
  · obtain ⟨p, e, hp, he, her⟩ := erase_of_remove_filePath hf h1 hr
    rw [hact]
    intro hiso
    have hgone : t.get (p ++ [f.text]) = none := by rw [Tree.get_erase (by simp) her, if_pos rfl]
    have hpre := hiso.prefix_of_changed (p := p ++ [f.text]) (by simp [hgone, he])
    exact hu (validName_of_isPrefix hpre he)
  · exact absurd h hidle

/-! ## All requests -/

theorem isolated_of_own {r : Request} (hr : r.Delivered) (h : Own cwd s r) :
    Isolated cwd r.user s (serve (posix cwd) address r s).2 := by
  cases r with
  | register u => exact registerUser.act_isolated h
  | unregister u => exact unregisterUser.act_isolated h
  | connect u p => exact connectUser.act_isolated u.text p.text
  | disconnect u => exact disconnectUser.act_isolated u.text
  | publish u f d => exact publishFile.act_isolated d h
  | delete u f => exact deleteFile.act_isolated hr.2.length_eq h

theorem not_isolated {r : Request} (hr : r.Delivered) (hown : ¬ Own cwd s r)
    (hidle : ¬ Idle cwd address s r) :
    ¬ Isolated cwd r.user s (serve (posix cwd) address r s).2 := by
  cases r with
  | register u => exact registerUser.act_not_isolated (not_not.1 hown) hidle
  | unregister u => exact unregisterUser.act_not_isolated hown hidle
  | connect u p => exact absurd trivial hown
  | disconnect u => exact absurd trivial hown
  | publish u f d => exact publishFile.act_not_isolated hown hidle
  | delete u f => exact deleteFile.act_not_isolated hr.2.length_eq hown hidle

/-- **Isolation of users**: a request keeps to its user exactly when it has no effect or its paths
stay in the user's directory. -/
theorem isolated_serve_iff {r : Request} (hr : r.Delivered) :
    Isolated cwd r.user s (serve (posix cwd) address r s).2 ↔
      Idle cwd address s r ∨ Own cwd s r := by
  constructor
  · intro hiso
    by_contra h
    obtain ⟨hidle, hown⟩ := not_or.1 h
    exact not_isolated hr hown hidle hiso
  · rintro (hidle | hown)
    · rw [(serve_eq_self_iff r).2 hidle]
      exact .refl cwd r.user s
    · exact isolated_of_own hr hown

/-- Registering a first user in an empty `./Users`. -/
theorem isolated_serve_register :
    Isolated [] (cstring "alice") (initP2pService (posix []) .empty)
        (serve (posix []) none (.register (Line.of (cstring "alice")))
          (initP2pService (posix []) .empty)).2 ↔
      Idle [] none (initP2pService (posix []) .empty) (.register (Line.of (cstring "alice"))) ∨
        Own [] (initP2pService (posix []) .empty) (.register (Line.of (cstring "alice"))) :=
  isolated_serve_iff (r := .register (Line.of (cstring "alice"))) (by decide)

/-- A name with a slash in it makes a directory inside the directory of another user: `alice`, then
`alice/x`. -/
theorem register_crosses_users :
    ¬ ∀ (cwd : Pos) (address : Option Bytes) (s : Store) (r : Request),
      ServerReaches cwd s → r.Delivered →
        Isolated cwd r.user s (serve (posix cwd) address r s).2 := by
  intro h
  have hreach : ServerReaches [] (serve (posix []) none (.register (Line.of (cstring "alice")))
      (initP2pService (posix []) .empty)).2 :=
    (Reachable.of_init ⟨.empty, rfl⟩).snoc
      ⟨none, .register (Line.of (cstring "alice"))⟩ ⟨by decide, rfl⟩
  have hiso := h [] none _ (.register (Line.of (cstring "alice/x"))) hreach (by decide)
  have hpre := hiso.prefix_of_changed (p := [users, cstring "alice", cstring "x"]) (by decide)
  exact absurd hpre (by decide)

end DistributedSystems.Lab
