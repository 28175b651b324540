import DistributedSystems.Lab.ServerC.PeerToPeerRpc
import DistributedSystems.Lab.ServerC.Server

/-!
# The two servers agree

The in-process handlers and the handlers of the RPC front end, with the procedures they call, do the
same to a request, with the same system calls, as long as `./Users` can be read. Without it the
in-process server tells the failed lookup from an entry that was found and the daemon does not:
UNREGISTER and DELETE then still fail in the same way further on, and no other request is answered
alike (`serve_eq_serveRpc_iff`).
-/

namespace DistributedSystems.Lab

open Fs

/-- The system calls may fail in any way on what exists, except that every directory can be read,
and `remove` fails on a path that goes through a missing entry or a file. -/
structure Lawful (cwd : Pos) (c : SysCalls) : Prop where
  opendir : ∀ t path, c.opendir t path = (posix cwd).opendir t path
  remove : ∀ t path, leaf t (origin cwd path) (components path) = none → c.remove t path = none

theorem posix_lawful (cwd : Pos) : Lawful cwd (posix cwd) where
  opendir _ _ := rfl
  remove t path h := by
    cases hr : (posix cwd).remove t path with
    | none => rfl
    | some t' =>
      obtain ⟨p, n, e, -, hw, -, -⟩ := posix.remove_erases hr
      have hsome := leaf_isSome_of_walk (components_ne_nil path) hw
      rw [h] at hsome
      cases hsome

section Agreement

variable {cwd : Pos} {c : SysCalls} (hc : Lawful cwd c) {s : Store}

include hc

theorem Lawful.isusrRegistered_eq (t : Tree) (u : Bytes) :
    isusrRegistered c t u = isusrRegistered (posix cwd) t u := by
  simp only [isusrRegistered, searchDirectory, hc.opendir]

theorem Lawful.isusrRegistered_of_dir {t : Tree} (h : t.get (usersPos cwd) = some .dir)
    (u : Bytes) : isusrRegistered c t u = 0 ∨ isusrRegistered c t u = 1 := by
  rw [hc.isusrRegistered_eq, DistributedSystems.Lab.isusrRegistered_eq, if_pos h]
  split <;> simp

theorem Lawful.isusrRegistered_of_not_dir {t : Tree} (h : t.get (usersPos cwd) ≠ some .dir)
    (u : Bytes) : isusrRegistered c t u = -1 := by
  rw [hc.isusrRegistered_eq, DistributedSystems.Lab.isusrRegistered_eq, if_neg h]

/-- Without `./Users` no path below it leads anywhere. -/
theorem Lawful.opendir_of_not_dir {t : Tree} (h : t.get (usersPos cwd) ≠ some .dir) (u : Bytes) :
    c.opendir t (userPath u) = none ∧ c.opendir t (userDirPath u) = none := by
  have hwalk : ∀ cs, cs ≠ [] → walk t cwd (dot :: users :: cs) = none := by
    intro cs hcs
    obtain ⟨d, cs, rfl⟩ := List.exists_cons_of_ne_nil hcs
    rw [walk_users, if_neg h]
  have hnone : ∀ path cs, cs ≠ [] → components path = dot :: users :: cs →
      origin cwd path = cwd → c.opendir t path = none := by
    intro path cs hcs hcomp horigin
    rw [hc.opendir]
    cases ho : (posix cwd).opendir t path with
    | none => rfl
    | some entries =>
      obtain ⟨p, hp, -, -⟩ := posix.opendir_eq_some_iff.1 ho
      unfold resolve at hp
      split at hp
      · cases hp
      · rw [horigin, hcomp, hwalk cs hcs] at hp; cases hp
  exact ⟨hnone _ _ (components_ne_nil u) (components_userPath u) rfl,
    hnone _ _ (by simp) (components_userDirPath u) rfl⟩

/-- The directory of a listed user can be read, when the entries of `./Users` are directories. -/
theorem Lawful.fileExists_ne_neg_one {t : Tree}
    (hdirs : ∀ n ∈ t.names (usersPos cwd), t.get (usersPos cwd ++ [n]) = some .dir) {u : Bytes}
    (hl : Listed cwd t u) (f : Bytes) : fileExists c t f (userDirPath u) ≠ -1 := by
  obtain ⟨hd, hmem⟩ := hl
  have hslash := slash_notMem_of_mem_listing hmem
  obtain ⟨p, hw, hp⟩ : ∃ p, walk t (usersPos cwd) [u] = some p ∧ t.get p = some .dir := by
    rcases List.mem_cons.1 hmem with rfl | hmem
    · exact ⟨_, by simp [step_dot hd], hd⟩
    rcases List.mem_cons.1 hmem with rfl | hmem
    · refine ⟨_, by simp only [walk_cons, step_dotDot hd]; rfl, ?_⟩
      unfold usersPos
      rw [List.dropLast_concat]
      exact Tree.get_parent hd
    · have he := hdirs u hmem
      refine ⟨_, ?_, he⟩
      rw [walk_cons, step_of_validName (Tree.validName_of_get he), he]
      rfl
  have hres : resolve cwd t (userDirPath u) = some p := by
    refine resolve_userDirPath.2 ⟨?_, hp⟩
    rw [components_of_not_mem hslash, walk_users, if_pos hd, hw]
  have ho : c.opendir t (userDirPath u) = some (listing t p) := by
    rw [hc.opendir]
    exact opendir_userDirPath.2 ⟨p, hres, rfl⟩
  unfold fileExists
  rw [searchDirectory_of_opendir ho]
  split <;> simp

/-- `remove` finds nothing below a directory that cannot be read. -/
theorem Lawful.remove_of_fileExists {t : Tree} {u f g : Bytes} {k : Nat}
    (h : fileExists c t g (userDirPath u) = -1) :
    c.remove t (strncat (userDirPath u) f k) = none := by
  apply hc.remove _ _
  cases hl : leaf t cwd (components (strncat (userDirPath u) f k)) with
  | none => exact hl
  | some r =>
    obtain ⟨ds, hds, hw, hd⟩ := leaf_eq_some_iff.1 hl
    -- what is before the last component goes through the user's directory
    obtain ⟨es, hes⟩ : ∃ es, ds = dot :: users :: components u ++ es := by
      rw [components_filePath] at hds
      obtain ⟨es, m, hm⟩ := (List.eq_nil_or_concat' (components (f.take k))).resolve_left
        (components_ne_nil _)
      refine ⟨es, (List.append_singleton_inj.1 (?_ : ds ++ [r.2] = _ ++ [m])).1⟩
      rw [← hds, hm]
      simp
    rw [hes] at hw
    obtain ⟨p, hp, hpd⟩ := get_of_walk_append hw hd
    have ho : c.opendir t (userDirPath u) = some (listing t p) := by
      rw [hc.opendir]
      exact opendir_userDirPath.2 ⟨p, resolve_userDirPath.2 ⟨hp, hpd⟩, rfl⟩
    unfold fileExists at h
    rw [searchDirectory_of_opendir ho] at h
    split at h <;> cases h

/-! ### Handler by handler -/

theorem registerUser.act_eq_rpc_iff (u : Bytes) :
    registerUser.act c u s = registerUserRpc.act (.delivering c) u s ↔
      s.tree.get (usersPos cwd) = some .dir := by
  simp only [registerUserRpc.act, Stubs.delivering, delivered, answer, Option.getD_some,
    registerUser.act, registerUserRpc1Svc]
  by_cases h : s.tree.get (usersPos cwd) = some .dir
  · rcases hc.isusrRegistered_of_dir h u with h0 | h1
    · cases hm : c.mkdir s.tree (userPath u) <;> simp [h0, h]
    · simp [h1, h]
  · simp [hc.isusrRegistered_of_not_dir h u, h]

theorem unregisterUser.act_eq_rpc (u : Bytes) :
    unregisterUser.act c u s = unregisterUserRpc.act (.delivering c) u s := by
  simp only [unregisterUserRpc.act, Stubs.delivering, delivered, answer, Option.getD_some,
    unregisterUser.act, unregisterUserRpc1Svc]
  by_cases h : s.tree.get (usersPos cwd) = some .dir
  · rcases hc.isusrRegistered_of_dir h u with h0 | h1
    · simp [h0]
    · simp [h1]
  · -- the daemon goes on, and then cannot open the directory to remove
    have hrem : removeDirectory c s.tree (userPath u) = (-1, s.tree) := by
      simp only [removeDirectory, removeDirectoryAux, (hc.opendir_of_not_dir h u).1]
    simp [hc.isusrRegistered_of_not_dir h u, hrem]

theorem connectUser.act_eq_rpc_iff (a u p : Bytes) :
    connectUser.act c (some a) u p s = connectUserRpc.act (.delivering c) (some a) u p s ↔
      s.tree.get (usersPos cwd) = some .dir := by
  simp only [connectUserRpc.act, Stubs.delivering, delivered, answer, Option.getD_some,
    connectUser.act, connectUserRpc1Svc, findElementByname_ne_zero_iff]
  by_cases h : s.tree.get (usersPos cwd) = some .dir
  · rcases hc.isusrRegistered_of_dir h u with h0 | h1
    · simp [h0, h]
    · by_cases hu : u ∈ userNames s.connected <;> simp [h1, hu, h]
  · by_cases hu : u ∈ userNames s.connected <;>
      simp [hc.isusrRegistered_of_not_dir h u, hu, h]

theorem disconnectUser.act_eq_rpc_iff (u : Bytes) :
    disconnectUser.act c u s = disconnectUserRpc.act (.delivering c) u s ↔
      s.tree.get (usersPos cwd) = some .dir := by
  simp only [disconnectUserRpc.act, Stubs.delivering, delivered, answer, Option.getD_some,
    disconnectUser.act, disconnectUserRpc1Svc, findElementByname_ne_zero_iff,
    findElementByname_eq_zero_iff]
  by_cases h : s.tree.get (usersPos cwd) = some .dir
  · rcases hc.isusrRegistered_of_dir h u with h0 | h1
    · simp [h0, h]
    · by_cases hu : u ∈ userNames s.connected <;> simp [h1, hu, h]
  · by_cases hu : u ∈ userNames s.connected <;>
      simp [hc.isusrRegistered_of_not_dir h u, hu, h]

theorem publishFile.act_eq_rpc_iff
    (hdirs : ∀ n ∈ s.tree.names (usersPos cwd), s.tree.get (usersPos cwd ++ [n]) = some .dir)
    {u f d : Line} (hf : f.length = f.text.length) (hd : d.length = d.text.length) :
    publishFile.act c u f d s =
        publishFileRpc.act (.delivering c) u.text f.text d.text s ↔
      s.tree.get (usersPos cwd) = some .dir := by
  have hdata : d.text.take d.length = d.text := List.take_of_length_le (by omega)
  simp only [publishFileRpc.act, Stubs.delivering, delivered, answer, Option.getD_some,
    publishFile.act, publishFileRpc1Svc, findElementByname_ne_zero_iff,
    findElementByname_eq_zero_iff, hf, hdata]
  by_cases h : s.tree.get (usersPos cwd) = some .dir
  · rcases hc.isusrRegistered_of_dir h u.text with h0 | h1
    · simp [h0, h]
    · by_cases hu : u.text ∈ userNames s.connected
      · have hl : Listed cwd s.tree u.text := by
          rw [← isusrRegistered_eq_one_iff, ← hc.isusrRegistered_eq, h1]
        have hne := hc.fileExists_ne_neg_one hdirs hl f.text
        rcases searchDirectory_cases c s.tree (userDirPath u.text) f.text with hx | hx | hx
        · exact absurd hx hne
        · rw [← fileExists] at hx
          cases ho : c.openCreate s.tree (strncat (userDirPath u.text) f.text f.text.length) with
          | none => simp [h1, hu, hx, h]
          | some r => cases hw : c.write r.1 r.2 d.text <;> simp [h1, hu, hx, h, hw]
        · rw [← fileExists] at hx
          simp [h1, hu, hx, h]
      · simp [h1, hu, h]
  · have hx : fileExists c s.tree f.text (userDirPath u.text) = -1 :=
      searchDirectory_of_none (hc.opendir_of_not_dir h u.text).2
    by_cases hu : u.text ∈ userNames s.connected <;>
      simp [hc.isusrRegistered_of_not_dir h u.text, hu, h, hx]

theorem deleteFile.act_eq_rpc {u f : Line} (hf : f.length = f.text.length) :
    deleteFile.act c u f s = deleteFileRpc.act (.delivering c) u.text f.text s := by
  simp only [deleteFileRpc.act, Stubs.delivering, delivered, answer, Option.getD_some,
    deleteFile.act, deleteFileRpc1Svc, hf]
  rcases searchDirectory_cases c s.tree (userDirPath u.text) f.text with hx | hx | hx
  · rw [← fileExists] at hx
    simp [hx, hc.remove_of_fileExists hx]
  · rw [← fileExists] at hx
    simp [hx]
  · rw [← fileExists] at hx
    cases hr : c.remove s.tree (strncat (userDirPath u.text) f.text f.text.length) <;> simp [hx]

/-- **The two servers agree** on a request exactly when `./Users` is a directory, or the request is
UNREGISTER or DELETE. -/
theorem serve_eq_serveRpc_iff
    (hdirs : ∀ n ∈ s.tree.names (usersPos cwd), s.tree.get (usersPos cwd ++ [n]) = some .dir)
    {r : Request} (hr : r.Delivered) (a : Bytes) :
    serve c (some a) r s = serveRpc (.delivering c) (some a) r s ↔
      s.tree.get (usersPos cwd) = some .dir ∨ (∃ u, r = .unregister u) ∨
        ∃ u f, r = .delete u f := by
  cases r with
  | register u => simpa [serve, serveRpc] using registerUser.act_eq_rpc_iff hc u.text
  | unregister u => simpa [serve, serveRpc] using unregisterUser.act_eq_rpc hc u.text
  | connect u p => simpa [serve, serveRpc] using connectUser.act_eq_rpc_iff hc a u.text p.text
  | disconnect u => simpa [serve, serveRpc] using disconnectUser.act_eq_rpc_iff hc u.text
  | publish u f d =>
    have hiff := publishFile.act_eq_rpc_iff hc hdirs (u := u) hr.2.1.length_eq hr.2.2.length_eq
    simpa [serve, serveRpc] using hiff
  | delete u f => simpa [serve, serveRpc] using deleteFile.act_eq_rpc hc hr.2.length_eq

end Agreement

/-- A publication of alice's, whose directory is there and who is connected. -/
theorem agree_on_publish_alice :
    serve (posix []) (some []) (.publish (Line.of (cstring "alice")) (Line.of (cstring "notes"))
        (Line.of (cstring "text"))) aliceOnline =
      serveRpc (.delivering (posix [])) (some []) (.publish (Line.of (cstring "alice"))
        (Line.of (cstring "notes")) (Line.of (cstring "text"))) aliceOnline := by
  have hdirs : ∀ n ∈ aliceOnline.tree.names (usersPos []),
      aliceOnline.tree.get (usersPos [] ++ [n]) = some .dir := by decide
  exact (serve_eq_serveRpc_iff (posix_lawful []) hdirs (by decide) []).2 (Or.inl (by decide))

/-- With no `./Users`, the in-process server answers 2 to REGISTER and the daemon 1. -/
theorem register_without_users_differs :
    ¬ ∀ (cwd : Pos) (c : SysCalls) (s : Store) (r : Request) (a : Bytes), Lawful cwd c →
      (∀ n ∈ s.tree.names (usersPos cwd), s.tree.get (usersPos cwd ++ [n]) = some .dir) →
        r.Delivered → serve c (some a) r s = serveRpc (.delivering c) (some a) r s := by
  intro h
  have hsame := h [] (posix []) ⟨.empty, []⟩ (.register (Line.of (cstring "alice"))) []
    (posix_lawful []) (by decide) (by decide)
  exact absurd (congrArg Prod.fst hsame) (by decide)

end DistributedSystems.Lab
