import DistributedSystems.Lab.ServerC.Server

/-!
# What was created can be found and undone

REGISTER and PUBLISH create through a path, and every later lookup compares with the names of a
directory. The two meet exactly for names without slashes: those are found again, refused a second
time and undone without a trace (`registered_undone`, `published_undone`), and a name with a slash
that was created is never found (`undone_iff`).
-/

namespace DistributedSystems.Lab

open Fs Support

/-- A registration that answers 0 can be seen, is refused a second time and can be undone. -/
def RegisterUndone (cwd : Pos) (u : Bytes) (s : Store) : Prop :=
  let r := registerUser.act (posix cwd) u s
  r.1 = success →
    isusrRegistered (posix cwd) r.2.tree u = 1 ∧
      (registerUser.act (posix cwd) u r.2).1 = userRegistered ∧
      (unregisterUser.act (posix cwd) u r.2).1 = success ∧
      (unregisterUser.act (posix cwd) u r.2).2.tree = s.tree

/-- `f` is in the listing of `u`'s content exactly once. -/
def ListedOnce (c : SysCalls) (u f : Bytes) (s : Store) : Prop :=
  ∃ entries, c.opendir s.tree (userDirPath u) = some entries ∧
    listContent.act c u s =
      htonl success ++ htonl (fileNames entries).length ++ (fileNames entries).flatMap sendField ∧
    (fileNames entries).count f = 1

/-- A publication that answers 0 can be seen, is refused a second time and can be undone. -/
def PublishUndone (cwd : Pos) (u f d : Line) (s : Store) : Prop :=
  let r := publishFile.act (posix cwd) u f d s
  r.1 = success →
    ListedOnce (posix cwd) u.text f.text r.2 ∧
      (publishFile.act (posix cwd) u f d r.2).1 = filePublished ∧
      (deleteFile.act (posix cwd) u f r.2).1 = success ∧
      (deleteFile.act (posix cwd) u f r.2).2.tree = s.tree

variable {cwd : Pos} {s : Store}

/-! ## REGISTER -/

/-- The removal of an empty directory. -/
theorem removeDirectory_of_empty {t v : Tree} {u : Bytes} (hu : ValidName u)
    (hd : t.get (usersPos cwd ++ [u]) = some .dir) (hnil : t.names (usersPos cwd ++ [u]) = [])
    (hv : t.erase (usersPos cwd ++ [u]) = some v) :
    removeDirectory (posix cwd) t (userPath u) = (0, v) := by
  have hres := resolve_userPath hu hd
  have ho : (posix cwd).opendir t (userPath u) = some (listing t (usersPos cwd ++ [u])) :=
    posix.opendir_eq_some_iff.2 ⟨_, hres, hd, rfl⟩
  have hrm : (posix cwd).rmdir t (userPath u) = some v := by
    obtain ⟨cs, n, hcs, hn⟩ := ends_userPath hu
    obtain ⟨p, hp, hl⟩ := leaf_of_resolve hcs hn hres
    refine posix.rmdir_eq_some_iff.2 ⟨p, n, ?_, hp ▸ hd, hp ▸ hv⟩
    rw [hcs, stripTrailing_snoc hn.1, ← hcs]
    exact hl
  simp only [removeDirectory, removeDirectoryAux, ho, removeEntries_listing, hnil, removeEntries,
    hrm, if_true]

theorem registered_undone {u : Bytes} (hu : slash ∉ u) : RegisterUndone cwd u s := by
  intro h
  rcases registerUser.act_cases (posix cwd) s u with ⟨t, h0, hm, hact⟩ | ⟨-, hne, -⟩
  · have husers := (isusrRegistered_eq_zero_iff.1 h0).1
    obtain ⟨hvalid, hcr⟩ := create_of_mkdir_userPath hu husers hm
    have hget : t.get (usersPos cwd ++ [u]) = some .dir := by
      rw [Tree.get_create hcr, if_pos rfl]
    have hlisted : isusrRegistered (posix cwd) t u = 1 := by
      refine isusrRegistered_eq_one_iff.2 ⟨Tree.get_of_create hcr husers, ?_⟩
      exact mem_listing_iff.2 (Or.inr (Or.inr (Option.isSome_of_eq_some hget)))
    have herase := Tree.erase_of_create hcr
    have hrm := removeDirectory_of_empty hvalid hget
      (Tree.erase_isSome_iff.1 (Option.isSome_of_eq_some herase)) herase
    rw [hact]
    refine ⟨hlisted, ?_, ?_, ?_⟩
    · simp [registerUser.act, hlisted]
    · simp [unregisterUser.act, hlisted, hrm]
    · simp [unregisterUser.act, hlisted, hrm]
  · exact absurd h hne

/-- No directory entry has a slash in its name. -/
theorem isusrRegistered_ne_one {t : Tree} {u : Bytes} (hu : slash ∈ u) :
    isusrRegistered (posix cwd) t u ≠ 1 := fun h1 =>
  slash_notMem_of_mem_listing (isusrRegistered_eq_one_iff.1 h1).2 hu

theorem registerUndone_iff (u : Bytes) :
    RegisterUndone cwd u s ↔
      slash ∉ u ∨ isusrRegistered (posix cwd) s.tree u ≠ 0 ∨
        (posix cwd).mkdir s.tree (userPath u) = none := by
  constructor
  · intro h
    by_contra hc
    obtain ⟨hu, hrest⟩ := not_or.1 hc
    rcases registerUser.act_cases (posix cwd) s u with ⟨t, -, -, hact⟩ | ⟨hidle, -, -⟩
    · exact isusrRegistered_ne_one (not_not.1 hu) (h (by rw [hact])).1
    · exact hrest hidle
  · rintro (hu | hidle)
    · exact registered_undone hu
    · intro h
      rcases registerUser.act_cases (posix cwd) s u with ⟨t, h0, hm, -⟩ | ⟨-, hne, -⟩
      · rcases hidle with h0' | hm'
        · exact absurd h0 h0'
        · rw [hm] at hm'; cases hm'
      · exact absurd h hne

/-! ## PUBLISH -/

theorem mem_listing_of_le {t t' : Tree} (h : t ≤ t') {p : Pos} {n : Bytes}
    (hn : n ∈ listing t p) : n ∈ listing t' p := by
  rcases mem_listing_iff.1 hn with hd | hd | hs
  · exact mem_listing_iff.2 (Or.inl hd)
  · exact mem_listing_iff.2 (Or.inr (Or.inl hd))
  · obtain ⟨e, he⟩ := Option.isSome_iff_exists.1 hs
    exact mem_listing_iff.2 (Or.inr (Or.inr (Option.isSome_of_eq_some (h _ e he))))

theorem listed_of_le {t t' : Tree} (h : t ≤ t') {u : Bytes} (hl : Listed cwd t u) :
    Listed cwd t' u :=
  ⟨h _ _ hl.1, mem_listing_of_le h hl.2⟩

theorem resolve_userDirPath_mono {t t' : Tree} (h : t ≤ t') {u : Bytes} {p : Pos}
    (hp : resolve cwd t (userDirPath u) = some p) : resolve cwd t' (userDirPath u) = some p := by
  obtain ⟨hw, hd⟩ := resolve_userDirPath.1 hp
  exact resolve_userDirPath.2 ⟨walk_mono h hw, h _ _ hd⟩

theorem count_fileNames_listing {t : Tree} {p : Pos} {n : Bytes} {e : Entry}
    (he : t.get (p ++ [n]) = some e) : (fileNames (listing t p)).count n = 1 := by
  have hn := Tree.validName_of_get he
  have hmem : n ∈ t.names p := Tree.mem_names.2 (Option.isSome_of_eq_some he)
  rw [fileNames, List.count_filter (by simp [hn.2.2.2.1, hn.2.2.2.2]), listing,
    List.count_cons_of_ne hn.2.2.2.1.symm, List.count_cons_of_ne hn.2.2.2.2.symm]
  exact List.count_eq_one_of_mem (t.names_nodup p) hmem

/-- What PUBLISH of a name without slashes does: a new file of that name in the directory that the
user's path leads to. -/
structure Published (cwd : Pos) (u f : Line) (t t' : Tree) (p : Pos) : Prop where
  directory : resolve cwd t (userDirPath u.text) = some p
  le : t ≤ t'
  leaf : leaf t cwd (components (filePath u f)) = some (p, f.text)
  file : ∃ content, t'.get (p ++ [f.text]) = some (.file content)
  erase : t'.erase (p ++ [f.text]) = some t

theorem published_of_openCreate {t t₁ : Tree} {u f : Line} (hf : f.length = f.text.length)
    (hslash : slash ∉ f.text) (h0 : fileExists (posix cwd) t f.text (userDirPath u.text) = 0)
    {fd : Pos} (ho : (posix cwd).openCreate t (filePath u f) = some (t₁, fd)) (data : Bytes) :
    ∃ p, Published cwd u f t (t₁.write fd data) p := by
  obtain ⟨p, hp, hmem⟩ := fileExists_eq_zero_iff.1 h0
  have htake : f.text.take f.length = f.text := List.take_of_length_le (by omega)
  have hleaf : leaf t cwd (components (filePath u f)) = some (p, f.text) := by
    have := leaf_filePath (u := u.text) (f := f.text) (n := f.length) (by rwa [htake]) hp
    rwa [htake] at this
  obtain ⟨q, n, hl, rfl, hcase⟩ := posix.openCreate_eq_some_iff.1 ho
  unfold filePath at hl
  rw [origin_strncat, ← filePath, hleaf] at hl
  obtain ⟨rfl, rfl⟩ := Prod.mk.inj (Option.some.inj hl)
  rcases hcase with ⟨old, hold, -⟩ | hcr
  · -- a file that is there would have been listed
    exact absurd (mem_listing_iff.2 (Or.inr (Or.inr (Option.isSome_of_eq_some hold)))) hmem
  · have hnew := (Tree.create_isSome_iff.1 (Option.isSome_of_eq_some hcr)).2.1
    have hfile : (t₁.write (p ++ [f.text]) data).get (p ++ [f.text]) =
        some (.file (overwrite data [])) := by
      rw [Tree.get_write, if_pos rfl, Tree.get_create hcr, if_pos rfl]
      rfl
    refine ⟨p, hp, fun q e he => ?_, hleaf, ⟨_, hfile⟩, ?_⟩
    · have hne : q ≠ p ++ [f.text] := by rintro rfl; rw [hnew] at he; cases he
      rw [get_openCreate_write ho hne, he]
    · rw [Tree.erase_write, Tree.erase_of_create hcr]

theorem published_undone {u f d : Line} (hf : f.length = f.text.length) (hslash : slash ∉ f.text) :
    PublishUndone cwd u f d s := by
  intro h
  rcases publishFile.act_cases (posix cwd) s u f d with ⟨t, fd, t', hp, ho, hw, hact⟩ |
    ⟨t, fd, -, -, hw, -⟩ | ⟨-, hne, -⟩
  · obtain rfl : t.write fd (description d) = t' := Option.some.inj hw
    obtain ⟨p, hpub⟩ := published_of_openCreate hf hslash hp.absent ho (description d)
    generalize t.write fd (description d) = t' at hact hpub hw
    obtain ⟨content, hfile⟩ := hpub.file
    have hl : isusrRegistered (posix cwd) t' u.text = 1 :=
      isusrRegistered_eq_one_iff.2
        (listed_of_le hpub.le (isusrRegistered_eq_one_iff.1 hp.registered))
    have hdir := resolve_userDirPath_mono hpub.le hpub.directory
    have hopen : (posix cwd).opendir t' (userDirPath u.text) = some (listing t' p) :=
      opendir_userDirPath.2 ⟨p, hdir, rfl⟩
    have hex : fileExists (posix cwd) t' f.text (userDirPath u.text) = 1 := by
      refine fileExists_eq_one_iff.2 ⟨p, hdir, mem_listing_iff.2 (Or.inr (Or.inr ?_))⟩
      exact Option.isSome_of_eq_some hfile
    have hun : (posix cwd).unlink t' (filePath u f) = some s.tree := by
      refine posix.unlink_eq_some_iff.2 ⟨p, f.text, content, ?_, hfile, hpub.erase⟩
      obtain ⟨ds, hds, hwalk, hd⟩ := leaf_eq_some_iff.1 hpub.leaf
      unfold filePath
      rw [origin_strncat, ← filePath]
      exact leaf_eq_some_iff.2 ⟨ds, hds, walk_mono hpub.le hwalk, hpub.le _ _ hd⟩
    have hrm : (posix cwd).remove t' (filePath u f) = some s.tree := by
      have hun' : posixUnlink cwd t' (filePath u f) = some s.tree := hun
      simp only [posix, hun', Option.some_or]
    rw [hact]
    refine ⟨⟨_, hopen, ?_, count_fileNames_listing hfile⟩, ?_, ?_, ?_⟩
    · simp [listContent.act, hl, hopen]
    · simp [publishFile.act, hl, hp.connected, hex]
    · have hpath : strncat (userDirPath u.text) f.text f.length = filePath u f := rfl
      simp [deleteFile.act, hex, hpath, hrm]
    · have hpath : strncat (userDirPath u.text) f.text f.length = filePath u f := rfl
      simp [deleteFile.act, hex, hpath, hrm]
  · cases hw
  · exact absurd h hne

theorem not_listedOnce {u f : Bytes} (hf : slash ∈ f) : ¬ ListedOnce (posix cwd) u f s := by
  rintro ⟨entries, ho, -, hcount⟩
  obtain ⟨p, -, rfl⟩ := opendir_userDirPath.1 ho
  have hmem : f ∈ fileNames (listing s.tree p) := by
    rw [← List.count_pos_iff, hcount]
    exact Nat.one_pos
  exact slash_notMem_of_mem_listing (List.mem_of_mem_filter hmem) hf

theorem publishUndone_iff {u f d : Line} (hf : f.length = f.text.length) :
    PublishUndone cwd u f d s ↔
      slash ∉ f.text ∨ ¬ Publishes (posix cwd) s u.text f.text ∨
        (posix cwd).openCreate s.tree (filePath u f) = none := by
  constructor
  · intro h
    by_contra hc
    obtain ⟨hslash, hrest⟩ := not_or.1 hc
    rcases publishFile.act_cases (posix cwd) s u f d with ⟨t, fd, t', -, -, -, hact⟩ |
      ⟨t, fd, -, -, hw, -⟩ | ⟨hidle, -, -⟩
    · exact not_listedOnce (not_not.1 hslash) (h (by rw [hact])).1
    · cases hw
    · exact hrest hidle
  · rintro (hslash | hidle)
    · exact published_undone hf hslash
    · intro h
      rcases publishFile.act_cases (posix cwd) s u f d with ⟨t, fd, t', hp, ho, -, -⟩ |
        ⟨t, fd, -, -, hw, -⟩ | ⟨-, hne, -⟩
      · rcases hidle with hp' | ho'
        · exact absurd hp hp'
        · rw [ho] at ho'; cases ho'
      · cases hw
      · exact absurd h hne

/-! ## Both -/

/-- **Creations are found and undone** exactly when the created names have no slash or nothing is
created. -/
theorem undone_iff {u f d : Line} (hf : f.Delivered maxSize) :
    RegisterUndone cwd u.text s ∧ PublishUndone cwd u f d s ↔
      (slash ∉ u.text ∨ isusrRegistered (posix cwd) s.tree u.text ≠ 0 ∨
        (posix cwd).mkdir s.tree (userPath u.text) = none) ∧
      (slash ∉ f.text ∨ ¬ Publishes (posix cwd) s u.text f.text ∨
        (posix cwd).openCreate s.tree (filePath u f) = none) :=
  and_congr (registerUndone_iff u.text) (publishUndone_iff hf.length_eq)

/-- Carol registers and alice, who is connected, publishes; the server accepts both. -/
theorem undone_carol_notes :
    ((registerUser.act (posix []) (cstring "carol") aliceOnline).1 = success ∧
        RegisterUndone [] (cstring "carol") aliceOnline) ∧
      (publishFile.act (posix []) (Line.of (cstring "alice")) (Line.of (cstring "notes"))
          (Line.of (cstring "text")) aliceOnline).1 = success ∧
        PublishUndone [] (Line.of (cstring "alice")) (Line.of (cstring "notes"))
          (Line.of (cstring "text")) aliceOnline := by
  have hnotes : (Line.of (cstring "notes")).Delivered maxSize := by decide
  have hcarol : RegisterUndone [] (Line.of (cstring "carol")).text aliceOnline ∧
      PublishUndone [] (Line.of (cstring "carol")) (Line.of (cstring "notes"))
        (Line.of (cstring "text")) aliceOnline :=
    (undone_iff hnotes).2 ⟨Or.inl (by decide), Or.inl (by decide)⟩
  have halice : RegisterUndone [] (Line.of (cstring "alice")).text aliceOnline ∧
      PublishUndone [] (Line.of (cstring "alice")) (Line.of (cstring "notes"))
        (Line.of (cstring "text")) aliceOnline :=
    (undone_iff hnotes).2 ⟨Or.inl (by decide), Or.inl (by decide)⟩
  exact ⟨⟨by decide, hcarol.1⟩, by decide, halice.2⟩

/-- `REGISTER alice/` makes the directory `alice`, and then there is no entry `alice/`. -/
theorem register_slash_not_found :
    ¬ ∀ (cwd : Pos) (s : Store) (u f d : Line), ServerReaches cwd s → u.Delivered maxSize →
      f.Delivered maxSize → d.Delivered maxSize →
        RegisterUndone cwd u.text s ∧ PublishUndone cwd u f d s := by
  intro h
  have hundone := (h [] (initP2pService (posix []) .empty) (Line.of (cstring "alice/"))
    (Line.of []) (Line.of []) (.of_init ⟨.empty, rfl⟩) (by decide) (by decide) (by decide)).1
  exact absurd (hundone (by decide)).1 (by decide)

end DistributedSystems.Lab
