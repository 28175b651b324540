import DistributedSystems.Lab.Lib.RemoveDirectory
import DistributedSystems.Lab.ServerC.PeerToPeer

/-!
# Paths below `./Users`

Where the paths that the handlers build lead on a POSIX system. A name without slashes stays in the
directory it is looked up in; any other name is a path of its own from there.
-/

namespace DistributedSystems.Lab

open Fs

/-- The name of the directory of users. -/
def users : Bytes := cstring "Users"

/-- The position of `./Users`. -/
def usersPos (cwd : Pos) : Pos := cwd ++ [users]

theorem components_usersDirectory : components usersDirectory = [dot, users] := by decide

theorem validName_users : ValidName users := by decide

theorem usersDirectory_ne_nil : usersDirectory ≠ [] := by decide

variable {cwd : Pos} {t : Tree} {u f : Bytes}

@[simp] theorem origin_usersDirectory (cwd : Pos) (rest : Bytes) :
    origin cwd (usersDirectory ++ rest) = cwd := rfl

@[simp] theorem origin_userPath (cwd : Pos) (u : Bytes) : origin cwd (userPath u) = cwd := rfl

@[simp] theorem origin_userDirPath (cwd : Pos) (u : Bytes) :
    origin cwd (userDirPath u) = cwd := rfl

@[simp] theorem origin_strncat (cwd : Pos) (u f : Bytes) (n : Nat) :
    origin cwd (strncat (userDirPath u) f n) = cwd := rfl

theorem userPath_ne_nil (u : Bytes) : userPath u ≠ [] := by
  simp [userPath]

theorem components_userPath (u : Bytes) :
    components (userPath u) = dot :: users :: components u := by
  unfold userPath
  rw [components_append_slash, components_usersDirectory]
  rfl

theorem components_userDirPath (u : Bytes) :
    components (userDirPath u) = dot :: users :: (components u ++ [[]]) := by
  rw [userDirPath, show [slash] = slash :: [] from rfl, components_append_slash,
    components_userPath]
  rfl

theorem components_filePath (u f : Bytes) (n : Nat) :
    components (strncat (userDirPath u) f n) =
      dot :: users :: (components u ++ components (f.take n)) := by
  rw [strncat, userDirPath, List.append_assoc, List.singleton_append, components_append_slash,
    components_userPath]
  rfl

/-! ## Into `./Users` -/

/-- The walk into `./Users` and on from there. -/
theorem walk_users {c : Bytes} {cs : List Bytes} :
    walk t cwd (dot :: users :: c :: cs) =
      if t.get (usersPos cwd) = some .dir then walk t (usersPos cwd) (c :: cs) else none := by
  have hstep : step t cwd users =
      if (t.get (usersPos cwd)).isSome then some (usersPos cwd) else none :=
    step_of_validName validName_users
  by_cases hcwd : t.get cwd = some .dir
  · rw [walk_cons, step_dot hcwd, Option.bind_some, walk_cons, hstep]
    by_cases hu : t.get (usersPos cwd) = some .dir
    · rw [if_pos hu, hu]; rfl
    · rw [if_neg hu]
      split
      · rw [Option.bind_some, walk_cons]
        simp [step, hu]
      · rfl
  · have hu : t.get (usersPos cwd) ≠ some .dir := fun h => hcwd (Tree.get_parent h)
    rw [if_neg hu, walk_cons]
    simp [step, hcwd]

/-- `./Users` leads to its directory. -/
theorem walk_usersDirectory (h : t.get (usersPos cwd) = some .dir) :
    walk t cwd [dot, users] = some (usersPos cwd) := by
  have hcwd : t.get cwd = some .dir := Tree.get_parent h
  rw [walk_cons, step_dot hcwd, Option.bind_some, walk_cons, step_of_validName validName_users]
  have hsome : (t.get (cwd ++ [users])).isSome := Option.isSome_of_eq_some h
  rw [if_pos hsome]
  rfl

/-- `./Users` opens if it is a directory. -/
theorem opendir_usersDirectory :
    (posix cwd).opendir t usersDirectory =
      if t.get (usersPos cwd) = some .dir then some (listing t (usersPos cwd)) else none := by
  have hres : resolve cwd t usersDirectory = walk t cwd [dot, users] := by
    unfold resolve
    rw [if_neg usersDirectory_ne_nil, components_usersDirectory]
    rfl
  split
  · rename_i h
    exact posix.opendir_eq_some_iff.2 ⟨_, hres.trans (walk_usersDirectory h), h, rfl⟩
  · rename_i h
    cases ho : (posix cwd).opendir t usersDirectory with
    | none => rfl
    | some entries =>
      obtain ⟨p, hp, hd, -⟩ := posix.opendir_eq_some_iff.1 ho
      rw [hres, walk_cons] at hp
      obtain ⟨q, hq, hp⟩ := Option.bind_eq_some_iff.1 hp
      rw [step_dot (get_of_step hq)] at hq
      obtain rfl := Option.some.inj hq
      rw [walk_cons, step_of_validName validName_users] at hp
      split at hp
      · have hpe : cwd ++ [users] = p := Option.some.inj hp
        exact absurd (show t.get (cwd ++ [users]) = some .dir from hpe.symm ▸ hd) h
      · cases hp

/-- `u` is an entry of `./Users`, as `readdir` lists them. -/
def Listed (cwd : Pos) (t : Tree) (u : Bytes) : Prop :=
  t.get (usersPos cwd) = some .dir ∧ u ∈ listing t (usersPos cwd)

instance (cwd : Pos) (t : Tree) (u : Bytes) : Decidable (Listed cwd t u) :=
  inferInstanceAs (Decidable (_ ∧ _))

/-- What `isusr_registered` answers on a POSIX system. -/
theorem isusrRegistered_eq (cwd : Pos) (t : Tree) (u : Bytes) :
    isusrRegistered (posix cwd) t u =
      if t.get (usersPos cwd) = some .dir then
        if u ∈ listing t (usersPos cwd) then 1 else 0
      else -1 := by
  unfold isusrRegistered
  split
  · rename_i h
    exact searchDirectory_of_opendir (by rw [opendir_usersDirectory, if_pos h])
  · rename_i h
    exact searchDirectory_of_none (by rw [opendir_usersDirectory, if_neg h])

/-- It answers 1 for the names that `./Users` lists. -/
theorem isusrRegistered_eq_one_iff : isusrRegistered (posix cwd) t u = 1 ↔ Listed cwd t u := by
  rw [isusrRegistered_eq, Listed]
  split <;> rename_i h <;> simp [h]

theorem isusrRegistered_eq_zero_iff :
    isusrRegistered (posix cwd) t u = 0 ↔
      t.get (usersPos cwd) = some .dir ∧ u ∉ listing t (usersPos cwd) := by
  rw [isusrRegistered_eq]
  split <;> rename_i h <;> simp [h]

/-- A directory lists its entries and the two dots. -/
theorem mem_listing_iff {p : Pos} {n : Bytes} :
    n ∈ listing t p ↔ n = dot ∨ n = dotDot ∨ (t.get (p ++ [n])).isSome := by
  simp [listing, Tree.mem_names]

/-- A name that `readdir` yields has no slash. -/
theorem slash_notMem_of_mem_listing {p : Pos} {n : Bytes} (h : n ∈ listing t p) : slash ∉ n := by
  rcases listing_names n h with rfl | rfl | h
  · decide
  · decide
  · exact h.2.1

/-! ## The directory of a plain name -/

/-- The path of a plain name leads to the entry of that name. -/
theorem resolve_userPath (hu : ValidName u) {e : Entry}
    (he : t.get (usersPos cwd ++ [u]) = some e) :
    resolve cwd t (userPath u) = some (usersPos cwd ++ [u]) := by
  rw [resolve, if_neg (userPath_ne_nil u), components_userPath, components_of_not_mem hu.2.1,
    origin_userPath, walk_users, if_pos (Tree.get_parent he), walk_cons, step_of_validName hu, he]
  rfl

/-- And to nothing else. -/
theorem resolve_userPath_eq_some (hu : ValidName u) {p : Pos}
    (hp : resolve cwd t (userPath u) = some p) : p = usersPos cwd ++ [u] := by
  rw [resolve, if_neg (userPath_ne_nil u), components_userPath, components_of_not_mem hu.2.1,
    origin_userPath, walk_users] at hp
  split at hp
  · rw [walk_cons, step_of_validName hu] at hp
    split at hp
    · exact (Option.some.inj hp).symm
    · cases hp
  · cases hp

/-- The last component of a user's path is the name. -/
theorem ends_userPath (hu : ValidName u) :
    ∃ cs n, components (userPath u) = cs ++ [n] ∧ ValidName n :=
  ⟨[dot, users], u, by rw [components_userPath, components_of_not_mem hu.2.1]; rfl, hu⟩

/-- The path of a user's directory leads there whatever is removed inside. -/
theorem steady_userPath (hu : ValidName u) {e : Entry}
    (he : t.get (usersPos cwd ++ [u]) = some e) :
    Steady cwd t (userPath u) (usersPos cwd ++ [u]) :=
  fun _ hv => resolve_userPath hu (hv.get_self.trans he)

/-- What the removal of `v` leaves of the directory of `u`: all, when it fails or is the removal of
another name whose path does not lead above that directory. -/
theorem get_removeDirectory_userPath {c : SysCalls} (hc : c ≤ posix cwd) {v : Bytes}
    (hd : t.get (usersPos cwd ++ [u]) = some .dir)
    (hor : (removeDirectory c t (userPath v)).1 = -1 ∨ u ≠ v)
    (hframe : u ≠ v → ∀ p, resolve cwd t (userPath v) = some p → ¬ p <+: usersPos cwd ++ [u]) :
    (removeDirectory c t (userPath v)).2.get (usersPos cwd ++ [u]) = some .dir := by
  cases hp : resolve cwd t (userPath v) with
  | none =>
    have hsame : removeDirectory c t (userPath v) = (-1, t) :=
      removeDirectory_of_not_dir hc fun p hp' => by rw [hp] at hp'; cases hp'
    rw [hsame, hd]
  | some p =>
    have hrem := removeDirectory_removal hc (userPath_ne_nil v) hp
    by_cases huv : u = v
    · subst huv
      obtain rfl := resolve_userPath_eq_some (Tree.validName_of_get hd) hp
      have hfailed := hor.resolve_right fun hne => hne rfl
      rw [hrem.kept (by rw [hfailed]; decide), hd]
    · rw [hrem.frame _ (hframe huv p hp), hd]

/-- A directory made under a name without slashes is the child of that name. -/
theorem create_of_mkdir_userPath (hu : slash ∉ u) (h : t.get (usersPos cwd) = some .dir)
    {t' : Tree} (hm : (posix cwd).mkdir t (userPath u) = some t') :
    ValidName u ∧ t.create (usersPos cwd) u .dir = some t' := by
  obtain ⟨p, n, hl, hcr⟩ := posix.mkdir_eq_some_iff.1 hm
  have hnew := Tree.create_isSome_iff.1 (Option.isSome_of_eq_some hcr)
  rw [components_userPath, components_of_not_mem hu, origin_userPath] at hl
  by_cases hnil : u = []
  · -- the path is that of `./Users`, which is there
    subst hnil
    rw [show [dot, users, []] = [dot, users] ++ [[]] from rfl, stripTrailing_snoc_nil,
      show [dot, users] = [dot] ++ [users] from rfl,
      stripTrailing_snoc (by decide : users ≠ [])] at hl
    obtain ⟨ds, hds, hw, -⟩ := leaf_eq_some_iff.1 hl
    obtain ⟨rfl, rfl⟩ := List.append_singleton_inj.1 hds
    rw [walk_cons, step_dot (Tree.get_parent h)] at hw
    obtain rfl : cwd = p := Option.some.inj hw
    rw [← usersPos, h] at hnew
    cases hnew.2.1
  · rw [show [dot, users, u] = [dot, users] ++ [u] from rfl, stripTrailing_snoc hnil] at hl
    obtain ⟨ds, hds, hw, -⟩ := leaf_eq_some_iff.1 hl
    obtain ⟨rfl, rfl⟩ := List.append_singleton_inj.1 hds
    rw [walk_usersDirectory h] at hw
    obtain rfl := Option.some.inj hw
    exact ⟨hnew.2.2, hcr⟩

/-! ## Files in a user's directory -/

/-- The path with a slash at its end leads to a directory. -/
theorem resolve_userDirPath {p : Pos} :
    resolve cwd t (userDirPath u) = some p ↔
      walk t cwd (dot :: users :: components u) = some p ∧ t.get p = some .dir := by
  have hne : userDirPath u ≠ [] := by simp [userDirPath]
  have hcs : components (userDirPath u) = (dot :: users :: components u) ++ [[]] := by
    rw [components_userDirPath]; rfl
  unfold resolve
  rw [if_neg hne, hcs, origin_userDirPath, walk_snoc, Option.bind_eq_some_iff]
  constructor
  · rintro ⟨q, hw, hs⟩
    have hd := get_of_step hs
    rw [step_nil hd] at hs
    obtain rfl := Option.some.inj hs
    exact ⟨hw, hd⟩
  · rintro ⟨hw, hd⟩
    exact ⟨p, hw, step_nil hd⟩

theorem resolve_userDirPath_eq_some (hu : ValidName u) {p : Pos}
    (hp : resolve cwd t (userDirPath u) = some p) : p = usersPos cwd ++ [u] := by
  apply resolve_userPath_eq_some hu (t := t)
  unfold resolve
  rw [if_neg (userPath_ne_nil u), components_userPath, origin_userPath]
  exact (resolve_userDirPath.1 hp).1

/-- The directory of a user opens where its path leads to. -/
theorem opendir_userDirPath {entries : List Bytes} :
    (posix cwd).opendir t (userDirPath u) = some entries ↔
      ∃ p, resolve cwd t (userDirPath u) = some p ∧ listing t p = entries := by
  rw [posix.opendir_eq_some_iff]
  exact exists_congr fun p =>
    ⟨fun h => ⟨h.1, h.2.2⟩, fun h => ⟨h.1, (resolve_userDirPath.1 h.1).2, h.2⟩⟩

/-- `file_exists` answers 1 for the names that the user's directory lists. -/
theorem fileExists_eq_one_iff :
    fileExists (posix cwd) t f (userDirPath u) = 1 ↔
      ∃ p, resolve cwd t (userDirPath u) = some p ∧ f ∈ listing t p := by
  unfold fileExists
  rw [searchDirectory_eq_one_iff]
  simp only [opendir_userDirPath]
  constructor
  · rintro ⟨_, ⟨p, hp, rfl⟩, hf⟩; exact ⟨p, hp, hf⟩
  · rintro ⟨p, hp, hf⟩; exact ⟨_, ⟨p, hp, rfl⟩, hf⟩

theorem fileExists_eq_zero_iff :
    fileExists (posix cwd) t f (userDirPath u) = 0 ↔
      ∃ p, resolve cwd t (userDirPath u) = some p ∧ f ∉ listing t p := by
  unfold fileExists
  rw [searchDirectory_eq_zero_iff]
  simp only [opendir_userDirPath]
  constructor
  · rintro ⟨_, ⟨p, hp, rfl⟩, hf⟩; exact ⟨p, hp, hf⟩
  · rintro ⟨p, hp, hf⟩; exact ⟨_, ⟨p, hp, rfl⟩, hf⟩

/-- A name without slashes is the last component of the file's path, in the directory that the
user's path leads to. -/
theorem leaf_filePath {n : Nat} {p : Pos} (hf : slash ∉ f.take n)
    (hp : resolve cwd t (userDirPath u) = some p) :
    leaf t cwd (components (strncat (userDirPath u) f n)) = some (p, f.take n) := by
  obtain ⟨hw, hd⟩ := resolve_userDirPath.1 hp
  rw [components_filePath, components_of_not_mem hf]
  exact leaf_eq_some_iff.2 ⟨dot :: users :: components u, rfl, hw, hd⟩

/-- A file name without slashes is the last component of its path. -/
theorem stripTrailing_filePath {n : Nat} (hf : slash ∉ f.take n) (hne : f.take n ≠ []) :
    stripTrailing (components (strncat (userDirPath u) f n)) =
      components (strncat (userDirPath u) f n) := by
  rw [components_filePath, components_of_not_mem hf]
  change stripTrailing ((dot :: users :: components u) ++ [f.take n]) = _
  exact stripTrailing_snoc hne

/-! ## The two dot names

`readdir` lists them in every directory, so the lookups find them, and as paths they lead to
`./Users` itself and to the directory above it. -/

/-- The name `.` leads to `./Users` itself. -/
theorem resolve_userPath_dot (h : t.get (usersPos cwd) = some .dir) :
    resolve cwd t (userPath dot) = some (usersPos cwd) := by
  rw [resolve, if_neg (userPath_ne_nil dot), components_userPath,
    components_of_not_mem (by decide), origin_userPath, walk_users, if_pos h, walk_cons, step_dot h]
  rfl

/-- The name `..` leads to the working directory. -/
theorem resolve_userPath_dotDot (h : t.get (usersPos cwd) = some .dir) :
    resolve cwd t (userPath dotDot) = some cwd := by
  rw [resolve, if_neg (userPath_ne_nil dotDot), components_userPath,
    components_of_not_mem (by decide), origin_userPath, walk_users, if_pos h, walk_cons,
    step_dotDot h, usersPos, List.dropLast_concat]
  rfl

theorem steady_userPath_dot (h : t.get (usersPos cwd) = some .dir) :
    Steady cwd t (userPath dot) (usersPos cwd) :=
  fun _ hv => resolve_userPath_dot (hv.get_self.trans h)

/-- The path through `./Users/..` needs `./Users`, which no removal below one entry touches. -/
theorem steady_userPath_dotDot (h : t.get (usersPos cwd) = some .dir) {n : Bytes} {e : Entry}
    (he : t.get (cwd ++ [n]) = some e) :
    Steady cwd t (userPath dotDot ++ slash :: n) (cwd ++ [n]) := by
  intro v hv
  have hn := Tree.validName_of_get he
  have husers : v.get (usersPos cwd) = some .dir := by
    rw [hv.frame _ fun hb => hb.2 (hb.1.eq_of_length (by simp [usersPos])), h]
  rw [resolve_append_slash (userPath_ne_nil dotDot) hn.2.1, resolve_userPath_dotDot husers,
    Option.bind_some, step_of_validName hn, hv.get_self, he]
  rfl

/-- `rmdir` does not take a directory through a dot name. -/
theorem rmdir_userPath_dots {u : Bytes} (hu : u = dot ∨ u = dotDot) :
    (posix cwd).rmdir t (userPath u) = none := by
  have hslash : slash ∉ u := by rcases hu with rfl | rfl <;> decide
  have hne : u ≠ [] := by rcases hu with rfl | rfl <;> decide
  have hbad : ¬ ValidName u := by
    intro h
    exact hu.elim h.2.2.2.1 h.2.2.2.2
  cases hr : (posix cwd).rmdir t (userPath u) with
  | none => rfl
  | some t' =>
    obtain ⟨p, n, hl, hd, -⟩ := posix.rmdir_eq_some_iff.1 hr
    rw [components_userPath, components_of_not_mem hslash,
      show [dot, users, u] = [dot, users] ++ [u] from rfl, stripTrailing_snoc hne] at hl
    obtain ⟨ds, hds, -⟩ := leaf_eq_some_iff.1 hl
    obtain ⟨-, rfl⟩ := List.append_singleton_inj.1 hds
    exact absurd (Tree.validName_of_get hd) hbad

end DistributedSystems.Lab
