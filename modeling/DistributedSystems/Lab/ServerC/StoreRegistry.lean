import DistributedSystems.Lab.ServerC.Isolation
import DistributedSystems.Lab.ServerC.Registry
import DistributedSystems.Lab.ServerC.Undo

/-!
# The server is a registry

`Store.registry` reads the registry off the store. For requests with plain names the store moves and
the server answers exactly as the registry says (`serve_follows`, `run_replies`), and so it is over
whole runs, also when the server is started again on the tree that it has left
(`registers_of_run`).
-/

namespace DistributedSystems.Lab

open Fs Support Function

/-! ## The registry of a store -/

/-- The server's registry: names and texts are bytes, and a place is a port and an address. -/
abbrev ServerRegistry : Type := Registry Bytes Bytes Bytes (Bytes × Bytes)

abbrev ServerChange : Type := Registry.Change Bytes Bytes Bytes (Bytes × Bytes)

/-- The status that the server gives for an answer. -/
def Registry.Answer.status : Answer → Int
  | done => success
  | registered => userRegistered
  | notRegistered => userNotRegistered
  | connected => userConnected
  | notConnected => userNotConnected
  | published => filePublished
  | notPublished => fileNotPublished
  | nowhere => otherError3
  | nobody => otherError4

/-- What a request asks of the registry. -/
def Request.change (address : Option Bytes) : Request → ServerChange
  | .register userName => .register userName.text
  | .unregister userName => .unregister userName.text
  | .connect userName userPort =>
    .connect userName.text (address.map fun a => (userPort.text, a))
  | .disconnect userName => .disconnect userName.text
  | .publish userName fileName fileDescription =>
    .publish userName.text fileName.text (description fileDescription)
  | .delete userName fileName => .delete userName.text fileName.text

/-- The file that a request names. -/
def Request.file : Request → Option Line
  | .publish _ fileName _ => some fileName
  | .delete _ fileName => some fileName
  | _ => none

/-- The names of the request are no dot names, have no slashes and have arrived whole. -/
structure Request.WellNamed (r : Request) : Prop where
  user : ValidName r.user
  file : ∀ f, r.file = some f → ValidName f.text ∧ f.length = f.text.length

/-- The files in the directory of a user. -/
def publishedIn (cwd : Pos) (t : Tree) (u : Bytes) : Option (Bytes → Option Bytes) :=
  if t.get (usersPos cwd ++ [u]) = some .dir then
    some fun f =>
      match t.get (usersPos cwd ++ [u] ++ [f]) with
      | some (.file content) => some content
      | _ => none
  else none

def connectedAt (list : List UserServerData) (u : Bytes) : Option (Bytes × Bytes) :=
  (list.find? fun d => d.name = u).map fun d => (d.port, d.ipAddress)

def Store.registry (cwd : Pos) (s : Store) : ServerRegistry where
  published := publishedIn cwd s.tree
  connected := connectedAt s.connected

/-- `./Users` holds directories, and these hold files. -/
structure Shaped (cwd : Pos) (t : Tree) : Prop where
  users : t.get (usersPos cwd) = some .dir
  user : ∀ u e, t.get (usersPos cwd ++ [u]) = some e → e = .dir
  file : ∀ u f e, t.get (usersPos cwd ++ [u] ++ [f]) = some e → e ≠ .dir

/-- The tree has the shape, and nobody has two records. -/
structure WellKept (cwd : Pos) (s : Store) : Prop where
  shaped : Shaped cwd s.tree
  nodup : (userNames s.connected).Nodup

/-! ### Connections -/

section Connections

variable {list : List UserServerData} {u : Bytes}

theorem connectedAt_eq_none_iff : connectedAt list u = none ↔ u ∉ userNames list := by
  unfold connectedAt userNames
  rw [Option.map_eq_none_iff, List.find?_eq_none, List.mem_map]
  simp

/-- `find_element_byname` finds who is connected. -/
theorem findElementByname_connectedAt :
    findElementByname list u ≠ 0 ↔ connectedAt list u ≠ none := by
  rw [findElementByname_ne_zero_iff, ne_eq, connectedAt_eq_none_iff, not_not]

/-- An append connects its user. -/
theorem connectedAt_addElement {d : UserServerData} (h : d.name ∉ userNames list) :
    connectedAt (addElement d list) =
      update (connectedAt list) d.name (some (d.port, d.ipAddress)) := by
  funext v
  unfold connectedAt addElement
  rw [List.find?_append]
  by_cases hv : v = d.name
  · subst hv
    have hnone : (list.find? fun d' => d'.name = d.name) = none := by
      rw [List.find?_eq_none]
      intro d' hd' hname
      exact h (List.mem_map.2 ⟨d', hd', of_decide_eq_true hname⟩)
    rw [update_self, hnone, Option.none_or, List.find?_cons_of_pos (by simp)]
    rfl
  · rw [update_of_ne hv, List.find?_cons_of_neg (by simpa using Ne.symm hv), List.find?_nil,
      Option.or_none]

/-- A removal takes away the connection of its user, as nobody has two records. -/
theorem connectedAt_deleteElement (h : (userNames list).Nodup) :
    connectedAt (deleteElement u list) = update (connectedAt list) u none := by
  funext v
  by_cases hv : v = u
  · subst hv
    rw [update_self, connectedAt_eq_none_iff, mem_userNames_deleteElement h]
    exact fun hmem => hmem.2 rfl
  · rw [update_of_ne hv]
    unfold connectedAt
    rw [deleteElement_of_nodup h, List.find?_filter]
    refine congrArg (fun p => (list.find? p).map _) (funext fun d => ?_)
    by_cases hname : d.name = v
    · simp [hname, hv]
    · simp [hname]

end Connections

/-! ### Trees -/

section Trees

variable {cwd : Pos} {t t' : Tree} {u f : Bytes} {files : Bytes → Option Bytes}

/-- The files of a registered user are those in the directory. -/
theorem publishedIn_of_dir (h : t.get (usersPos cwd ++ [u]) = some .dir) :
    publishedIn cwd t u = some fun f =>
      match t.get (usersPos cwd ++ [u] ++ [f]) with
      | some (.file content) => some content
      | _ => none :=
  if_pos h

theorem publishedIn_of_absent (h : t.get (usersPos cwd ++ [u]) = none) :
    publishedIn cwd t u = none := by
  unfold publishedIn
  rw [h, if_neg nofun]

theorem dir_of_publishedIn (h : publishedIn cwd t u = some files) :
    t.get (usersPos cwd ++ [u]) = some .dir := by
  unfold publishedIn at h
  split at h
  · assumption
  · cases h

theorem absent_of_publishedIn (ht : Shaped cwd t) (h : publishedIn cwd t u = none) :
    t.get (usersPos cwd ++ [u]) = none := by
  cases hget : t.get (usersPos cwd ++ [u]) with
  | none => rfl
  | some e =>
    rw [ht.user u e hget] at hget
    rw [publishedIn_of_dir hget] at h
    cases h

/-- The file of a name, with its text. -/
theorem get_of_publishedIn (ht : Shaped cwd t) (h : publishedIn cwd t u = some files) (f : Bytes) :
    t.get (usersPos cwd ++ [u] ++ [f]) = (files f).map Entry.file := by
  rw [publishedIn_of_dir (dir_of_publishedIn h)] at h
  obtain rfl := Option.some.inj h
  dsimp only
  cases hget : t.get (usersPos cwd ++ [u] ++ [f]) with
  | none => rfl
  | some e =>
    cases e with
    | dir => exact absurd rfl (ht.file u f _ hget)
    | file content => rfl

/-- A user with a directory is registered. -/
theorem isusrRegistered_of_some (ht : Shaped cwd t) (h : publishedIn cwd t u = some files) :
    isusrRegistered (posix cwd) t u = 1 :=
  isusrRegistered_eq_one_iff.2 ⟨ht.users,
    mem_listing_iff.2 (Or.inr (Or.inr (Option.isSome_of_eq_some (dir_of_publishedIn h))))⟩

/-- A user without one is not. -/
theorem isusrRegistered_of_absent (ht : Shaped cwd t) (hu : ValidName u)
    (h : publishedIn cwd t u = none) : isusrRegistered (posix cwd) t u = 0 := by
  rw [isusrRegistered_eq_zero_iff]
  refine ⟨ht.users, fun hmem => ?_⟩
  rcases mem_listing_iff.1 hmem with hdot | hdot | hget
  · exact hu.2.2.2.1 hdot
  · exact hu.2.2.2.2 hdot
  · rw [absent_of_publishedIn ht h] at hget
    cases hget

/-- The path of a registered user's directory leads to it. -/
theorem resolve_userDirPath_of_some (hu : ValidName u) (h : publishedIn cwd t u = some files) :
    resolve cwd t (userDirPath u) = some (usersPos cwd ++ [u]) := by
  have hdir := dir_of_publishedIn h
  have hres := resolve_userPath hu hdir
  rw [resolve, if_neg (userPath_ne_nil u), components_userPath, origin_userPath] at hres
  exact resolve_userDirPath.2 ⟨hres, hdir⟩

/-- `file_exists` finds the files that are published. -/
theorem fileExists_of_some (ht : Shaped cwd t) (hu : ValidName u) (hf : ValidName f)
    (h : publishedIn cwd t u = some files) :
    fileExists (posix cwd) t f (userDirPath u) = if (files f).isSome then 1 else 0 := by
  have hres := resolve_userDirPath_of_some hu h
  have hget := get_of_publishedIn ht h f
  split
  · rename_i hsome
    refine fileExists_eq_one_iff.2 ⟨_, hres, mem_listing_iff.2 (Or.inr (Or.inr ?_))⟩
    rw [hget, Option.isSome_map]
    exact hsome
  · rename_i hnone
    refine fileExists_eq_zero_iff.2 ⟨_, hres, fun hmem => ?_⟩
    rcases mem_listing_iff.1 hmem with hdot | hdot | hsome
    · exact hf.2.2.2.1 hdot
    · exact hf.2.2.2.2 hdot
    · rw [hget, Option.isSome_map] at hsome
      exact hnone hsome

/-- The directory of nobody cannot be searched. -/
theorem fileExists_of_absent (ht : Shaped cwd t) (hu : ValidName u)
    (h : publishedIn cwd t u = none) :
    fileExists (posix cwd) t f (userDirPath u) = -1 := by
  apply searchDirectory_of_none
  cases hopen : (posix cwd).opendir t (userDirPath u) with
  | none => rfl
  | some entries =>
    obtain ⟨p, hp, hdir, -⟩ := posix.opendir_eq_some_iff.1 hopen
    rw [resolve_userDirPath_eq_some hu hp, absent_of_publishedIn ht h] at hdir
    cases hdir

/-! A change inside the directory of one user. -/

section Frame

variable (hframe : ∀ q, ¬ (usersPos cwd ++ [u]) <+: q → t'.get q = t.get q)
include hframe

/-- What is in another user's directory stays. -/
theorem get_of_frame {v : Bytes} (hv : v ≠ u) (rest : Pos) :
    t'.get (usersPos cwd ++ v :: rest) = t.get (usersPos cwd ++ v :: rest) := by
  apply hframe
  rw [List.prefix_append_right_inj, List.cons_prefix_cons]
  exact fun h => hv h.1.symm

/-- A change of one user's entries is an update of the registry at that user. -/
theorem publishedIn_of_frame :
    publishedIn cwd t' = update (publishedIn cwd t) u (publishedIn cwd t' u) := by
  funext v
  by_cases hv : v = u
  · rw [hv, update_self]
  · rw [update_of_ne hv]
    unfold publishedIn
    have hfile : ∀ f, t'.get (usersPos cwd ++ [v] ++ [f]) = t.get (usersPos cwd ++ [v] ++ [f]) := by
      intro f
      rw [List.append_assoc]
      exact get_of_frame hframe hv [f]
    rw [get_of_frame hframe hv []]
    simp only [hfile]

/-- The tree keeps its shape if the entries of one user do. -/
theorem Shaped.of_frame (ht : Shaped cwd t)
    (huser : ∀ e, t'.get (usersPos cwd ++ [u]) = some e → e = .dir)
    (hfile : ∀ f e, t'.get (usersPos cwd ++ [u] ++ [f]) = some e → e ≠ .dir) : Shaped cwd t' where
  users := by
    have hapart : ¬ (usersPos cwd ++ [u]) <+: usersPos cwd := by
      intro h
      have hlen := h.length_le
      rw [List.length_append, List.length_singleton] at hlen
      omega
    rw [hframe _ hapart]
    exact ht.users
  user v e hget := by
    by_cases hv : v = u
    · subst hv
      exact huser e hget
    · rw [get_of_frame hframe hv []] at hget
      exact ht.user v e hget
  file v f e hget := by
    by_cases hv : v = u
    · subst hv
      exact hfile f e hget
    · rw [List.append_assoc, List.singleton_append, get_of_frame hframe hv [f]] at hget
      apply ht.file v f e
      rw [List.append_assoc]
      exact hget

end Frame

/-- A change of one file. -/
theorem publishedIn_of_file (ht : Shaped cwd t) (hpub : publishedIn cwd t u = some files)
    {text : Option Bytes}
    (hget : ∀ q, t'.get q =
      if q = usersPos cwd ++ [u] ++ [f] then text.map Entry.file else t.get q) :
    Shaped cwd t' ∧
      publishedIn cwd t' = update (publishedIn cwd t) u (some (update files f text)) := by
  have hframe : ∀ q, ¬ (usersPos cwd ++ [u]) <+: q → t'.get q = t.get q := by
    intro q hq
    rw [hget, if_neg]
    rintro rfl
    exact hq (List.prefix_append _ _)
  have hdir : t'.get (usersPos cwd ++ [u]) = some .dir := by
    rw [hget, if_neg (by simp)]
    exact dir_of_publishedIn hpub
  have hfiles : ∀ g, t'.get (usersPos cwd ++ [u] ++ [g]) =
      (update files f text g).map Entry.file := by
    intro g
    rw [hget]
    by_cases hg : g = f
    · rw [hg, if_pos rfl, update_self]
    · rw [if_neg (by simpa using hg), update_of_ne hg, get_of_publishedIn ht hpub]
  constructor
  · refine ht.of_frame hframe ?_ ?_
    · intro e he
      exact (Option.some.inj (hdir.symm.trans he)).symm
    · rintro g e he rfl
      rw [hfiles] at he
      obtain ⟨content, -, hcontent⟩ := Option.map_eq_some_iff.1 he
      cases hcontent
  · rw [publishedIn_of_frame hframe, publishedIn_of_dir hdir]
    refine congrArg (fun files => update (publishedIn cwd t) u (some files)) (funext fun g => ?_)
    rw [hfiles]
    cases update files f text g with
    | none => rfl
    | some content => rfl

end Trees

/-! ## Requests -/

/-- The outcome of a handler is what the registry says of the change. -/
structure Follows (cwd : Pos) (s : Store) (change : ServerChange) (r : Int × Store) : Prop where
  kept : WellKept cwd r.2
  status : r.1 = ((s.registry cwd).apply change).1.status
  registry : r.2.registry cwd = ((s.registry cwd).apply change).2

section Requests

variable {cwd : Pos} {s : Store}

/-- A request that leaves the store as it is. -/
theorem Follows.same (h : WellKept cwd s) (answer : Registry.Answer) {change : ServerChange}
    (hsame : (s.registry cwd).apply change = (answer, s.registry cwd)) :
    Follows cwd s change (answer.status, s) where
  kept := h
  status := by rw [hsame]
  registry := by rw [hsame]

variable {u : Bytes}

/-- `mkdir` of a new plain name. -/
theorem mkdir_userPath (ht : Shaped cwd s.tree) (hu : ValidName u)
    (h : publishedIn cwd s.tree u = none) :
    ∃ t, (posix cwd).mkdir s.tree (userPath u) = some t ∧
      s.tree.create (usersPos cwd) u .dir = some t := by
  obtain ⟨t, hcreate⟩ := Option.isSome_iff_exists.1
    (Tree.create_isSome_iff (e := .dir).2 ⟨ht.users, absent_of_publishedIn ht h, hu⟩)
  refine ⟨t, posix.mkdir_eq_some_iff.2 ⟨usersPos cwd, u, ?_, hcreate⟩, hcreate⟩
  rw [components_userPath, components_of_not_mem hu.2.1, origin_userPath]
  have hstrip : stripTrailing ([dot, users] ++ [u]) = [dot, users] ++ [u] := stripTrailing_snoc hu.1
  change leaf s.tree cwd (stripTrailing ([dot, users] ++ [u])) = _
  rw [hstrip]
  exact leaf_eq_some_iff.2 ⟨[dot, users], rfl, walk_usersDirectory ht.users, ht.users⟩

/-- REGISTER is that of the registry. -/
theorem registerUser.act_follows (h : WellKept cwd s) (hu : ValidName u) :
    Follows cwd s (.register u) (registerUser.act (posix cwd) u s) := by
  unfold registerUser.act
  dsimp only
  cases hpub : publishedIn cwd s.tree u with
  | some files =>
    rw [isusrRegistered_of_some h.shaped hpub]
    apply Follows.same h .registered
    simp only [Registry.apply, Store.registry, hpub]
  | none =>
    obtain ⟨t, hmkdir, hcreate⟩ := mkdir_userPath h.shaped hu hpub
    rw [isusrRegistered_of_absent h.shaped hu hpub, if_pos rfl, hmkdir]
    have hget := Tree.get_create hcreate
    have hframe : ∀ q, ¬ (usersPos cwd ++ [u]) <+: q → t.get q = s.tree.get q := by
      intro q hq
      rw [hget, if_neg]
      rintro rfl
      exact hq (List.prefix_refl _)
    have hdir : t.get (usersPos cwd ++ [u]) = some .dir := by rw [hget, if_pos rfl]
    have hempty : ∀ f, t.get (usersPos cwd ++ [u] ++ [f]) = none := by
      intro f
      rw [hget, if_neg (by simp)]
      exact Tree.get_snoc_of_absent (absent_of_publishedIn h.shaped hpub) f
    have hnew : publishedIn cwd t u = some fun _ => none := by
      rw [publishedIn_of_dir hdir]
      simp only [hempty]
    refine ⟨⟨h.shaped.of_frame hframe ?_ ?_, h.nodup⟩, ?_, ?_⟩
    · intro e he
      exact (Option.some.inj (hdir.symm.trans he)).symm
    · intro f e he
      rw [hempty] at he
      cases he
    · simp only [Registry.apply, Store.registry, hpub]
      rfl
    · simp only [Registry.apply, Store.registry, hpub]
      rw [publishedIn_of_frame hframe, hnew]

/-- UNREGISTER is that of the registry: the directory goes with all its files, and then the record.
-/
theorem unregisterUser.act_follows (h : WellKept cwd s) (hu : ValidName u) :
    Follows cwd s (.unregister u) (unregisterUser.act (posix cwd) u s) := by
  unfold unregisterUser.act
  dsimp only
  cases hpub : publishedIn cwd s.tree u with
  | none =>
    rw [isusrRegistered_of_absent h.shaped hu hpub, if_neg (by decide), if_pos rfl]
    apply Follows.same h .notRegistered
    simp only [Registry.apply, Store.registry, hpub]
  | some files =>
    have hdir := dir_of_publishedIn hpub
    have hdone : (removeDirectory (posix cwd) s.tree (userPath u)).1 = 0 :=
      removeDirectory_succeeds (userPath_ne_nil u) (ends_userPath hu) (steady_userPath hu hdir) hdir
    have hremoval := removeDirectory_removal (SysCalls.le_refl (posix cwd)) (userPath_ne_nil u)
      (resolve_userPath hu hdir)
    rw [isusrRegistered_of_some h.shaped hpub, if_pos rfl, if_neg (by rw [hdone]; decide)]
    generalize removeDirectory (posix cwd) s.tree (userPath u) = r at hdone hremoval
    have hgone := hremoval.gone hdone
    have hempty := Tree.get_snoc_of_absent hgone
    refine ⟨⟨h.shaped.of_frame hremoval.frame ?_ ?_, nodup_deleteElement h.nodup u⟩, ?_, ?_⟩
    · intro e he
      rw [hgone] at he
      cases he
    · intro f e he
      rw [hempty] at he
      cases he
    · simp only [Registry.apply, Store.registry, hpub]
      rfl
    · simp only [Registry.apply, Store.registry, hpub]
      rw [publishedIn_of_frame hremoval.frame, publishedIn_of_absent hgone,
        connectedAt_deleteElement h.nodup]

/-- CONNECT is that of the registry. -/
theorem connectUser.act_follows (h : WellKept cwd s) (hu : ValidName u) (address : Option Bytes)
    (port : Bytes) :
    Follows cwd s (.connect u (address.map fun a => (port, a)))
      (connectUser.act (posix cwd) address u port s) := by
  unfold connectUser.act
  dsimp only
  cases hpub : publishedIn cwd s.tree u with
  | none =>
    rw [isusrRegistered_of_absent h.shaped hu hpub, if_neg (by decide), if_pos rfl]
    apply Follows.same h .notRegistered
    simp only [Registry.apply, Store.registry, hpub]
  | some files =>
    rw [isusrRegistered_of_some h.shaped hpub, if_pos rfl]
    cases hconn : connectedAt s.connected u with
    | some place =>
      rw [if_pos (findElementByname_connectedAt.2 (hconn ▸ Option.some_ne_none place))]
      apply Follows.same h .connected
      simp only [Registry.apply, Store.registry, hpub, hconn]
    | none =>
      rw [if_neg (not_not.2 hconn ∘ findElementByname_connectedAt.1)]
      cases address with
      | none =>
        apply Follows.same h .nowhere
        simp only [Registry.apply, Store.registry, hpub, hconn, Option.map_none]
      | some a =>
        have hnew := connectedAt_eq_none_iff.1 hconn
        refine ⟨⟨h.shaped, nodup_addElement h.nodup hnew⟩, ?_, ?_⟩
        · simp only [Registry.apply, Store.registry, hpub, hconn, Option.map_some]
          rfl
        · simp only [Registry.apply, Store.registry, hpub, hconn, Option.map_some]
          rw [connectedAt_addElement (d := ⟨u, port, a⟩) hnew]

/-- DISCONNECT is that of the registry. -/
theorem disconnectUser.act_follows (h : WellKept cwd s) (hu : ValidName u) :
    Follows cwd s (.disconnect u) (disconnectUser.act (posix cwd) u s) := by
  unfold disconnectUser.act
  dsimp only
  cases hpub : publishedIn cwd s.tree u with
  | none =>
    rw [isusrRegistered_of_absent h.shaped hu hpub, if_neg (by decide), if_pos rfl]
    apply Follows.same h .notRegistered
    simp only [Registry.apply, Store.registry, hpub]
  | some files =>
    rw [isusrRegistered_of_some h.shaped hpub, if_pos rfl]
    cases hconn : connectedAt s.connected u with
    | none =>
      rw [if_neg (not_not.2 hconn ∘ findElementByname_connectedAt.1)]
      apply Follows.same h .notConnected
      simp only [Registry.apply, Store.registry, hpub, hconn]
    | some place =>
      rw [if_pos (findElementByname_connectedAt.2 (hconn ▸ Option.some_ne_none place))]
      refine ⟨⟨h.shaped, nodup_deleteElement h.nodup u⟩, ?_, ?_⟩
      · simp only [Registry.apply, Store.registry, hpub, hconn]
        rfl
      · simp only [Registry.apply, Store.registry, hpub, hconn]
        rw [connectedAt_deleteElement h.nodup]

/-- The path of a file leads into the directory of its user. -/
theorem leaf_plainPath {user f : Line} (hu : ValidName user.text) (hf : ValidName f.text)
    (hlen : f.length = f.text.length) {files : Bytes → Option Bytes}
    (h : publishedIn cwd s.tree user.text = some files) :
    leaf s.tree (origin cwd (filePath user f)) (components (filePath user f)) =
      some (usersPos cwd ++ [user.text], f.text) := by
  have htake : f.text.take f.length = f.text := List.take_of_length_le (by omega)
  have hleaf := leaf_filePath (u := user.text) (f := f.text) (n := f.length)
    (by rw [htake]; exact hf.2.1) (resolve_userDirPath_of_some hu h)
  rw [htake] at hleaf
  unfold filePath
  rw [origin_strncat]
  exact hleaf

/-- PUBLISH is that of the registry. -/
theorem publishFile.act_follows (h : WellKept cwd s) {user f : Line} (d : Line)
    (hu : ValidName user.text) (hf : ValidName f.text) (hlen : f.length = f.text.length) :
    Follows cwd s (.publish user.text f.text (description d))
      (publishFile.act (posix cwd) user f d s) := by
  have hpath : strncat (userDirPath user.text) f.text f.length = filePath user f := rfl
  have hdata : d.text.take d.length = description d := rfl
  unfold publishFile.act
  dsimp only
  rw [hpath, hdata]
  cases hpub : publishedIn cwd s.tree user.text with
  | none =>
    rw [isusrRegistered_of_absent h.shaped hu hpub, if_neg (by decide)]
    apply Follows.same h .notRegistered
    simp only [Registry.apply, Store.registry, hpub]
  | some files =>
    rw [isusrRegistered_of_some h.shaped hpub, if_pos rfl]
    cases hconn : connectedAt s.connected user.text with
    | none =>
      rw [if_neg (not_not.2 hconn ∘ findElementByname_connectedAt.1)]
      apply Follows.same h .notConnected
      simp only [Registry.apply, Store.registry, hpub, hconn]
    | some place =>
      rw [if_pos (findElementByname_connectedAt.2 (hconn ▸ Option.some_ne_none place)),
        fileExists_of_some h.shaped hu hf hpub]
      cases hfile : files f.text with
      | some old =>
        rw [if_neg (by simp), if_pos (by simp)]
        apply Follows.same h .published
        simp only [Registry.apply, Store.registry, hpub, hconn, hfile]
      | none =>
        have habsent : s.tree.get (usersPos cwd ++ [user.text] ++ [f.text]) = none := by
          rw [get_of_publishedIn h.shaped hpub, hfile]
          rfl
        obtain ⟨t, hcreate⟩ := Option.isSome_iff_exists.1
          (Tree.create_isSome_iff (e := .file []).2 ⟨dir_of_publishedIn hpub, habsent, hf⟩)
        have hopen : (posix cwd).openCreate s.tree (filePath user f) =
            some (t, usersPos cwd ++ [user.text] ++ [f.text]) :=
          posix.openCreate_eq_some_iff.2
            ⟨_, _, leaf_plainPath hu hf hlen hpub, rfl, Or.inr hcreate⟩
        have hwrite : (posix cwd).write t (usersPos cwd ++ [user.text] ++ [f.text])
            (description d) =
              some (t.write (usersPos cwd ++ [user.text] ++ [f.text]) (description d)) := rfl
        rw [if_pos (by decide), hopen]
        dsimp only
        rw [hwrite]
        dsimp only
        have hget : ∀ q, (t.write (usersPos cwd ++ [user.text] ++ [f.text]) (description d)).get q =
            if q = usersPos cwd ++ [user.text] ++ [f.text] then
              (some (description d)).map Entry.file
            else s.tree.get q := by
          intro q
          rw [Tree.get_write, Tree.get_create hcreate]
          split
          · simp [Entry.overwritten, overwrite]
          · rfl
        obtain ⟨hshaped, hpublished⟩ := publishedIn_of_file h.shaped hpub hget
        refine ⟨⟨hshaped, h.nodup⟩, ?_, ?_⟩
        · simp only [Registry.apply, Store.registry, hpub, hconn, hfile]
          rfl
        · simp only [Registry.apply, Store.registry, hpub, hconn, hfile]
          rw [hpublished]

/-- DELETE is that of the registry. -/
theorem deleteFile.act_follows (h : WellKept cwd s) {user f : Line} (hu : ValidName user.text)
    (hf : ValidName f.text) (hlen : f.length = f.text.length) :
    Follows cwd s (.delete user.text f.text) (deleteFile.act (posix cwd) user f s) := by
  have hpath : strncat (userDirPath user.text) f.text f.length = filePath user f := rfl
  unfold deleteFile.act
  dsimp only
  rw [hpath]
  cases hpub : publishedIn cwd s.tree user.text with
  | none =>
    rw [fileExists_of_absent h.shaped hu hpub, if_neg (by decide), if_neg (by decide)]
    apply Follows.same h .nobody
    simp only [Registry.apply, Store.registry, hpub]
  | some files =>
    rw [fileExists_of_some h.shaped hu hf hpub]
    cases hfile : files f.text with
    | none =>
      rw [if_neg (by decide), if_pos (by decide)]
      apply Follows.same h .notPublished
      simp only [Registry.apply, Store.registry, hpub, hfile]
    | some old =>
      have hold : s.tree.get (usersPos cwd ++ [user.text] ++ [f.text]) = some (.file old) := by
        rw [get_of_publishedIn h.shaped hpub, hfile]
        rfl
      have hnotDir : s.tree.get (usersPos cwd ++ [user.text] ++ [f.text]) ≠ some .dir := by
        rw [hold]
        intro h
        cases h
      obtain ⟨t, herase⟩ := Option.isSome_iff_exists.1
        (Tree.erase_isSome_iff.2 (Tree.names_of_not_dir hnotDir))
      have hunlink : (posix cwd).unlink s.tree (filePath user f) = some t :=
        posix.unlink_eq_some_iff.2
          ⟨_, _, old, leaf_plainPath hu hf hlen hpub, hold, herase⟩
      have hremove : (posix cwd).remove s.tree (filePath user f) = some t := by
        change ((posix cwd).unlink s.tree (filePath user f)).or _ = some t
        rw [hunlink]
        rfl
      rw [if_pos (by simp), hremove]
      dsimp only
      have hget : ∀ q, t.get q =
          if q = usersPos cwd ++ [user.text] ++ [f.text] then (none : Option Bytes).map Entry.file
          else s.tree.get q :=
        fun q => Tree.get_erase (by simp) herase q
      obtain ⟨hshaped, hpublished⟩ := publishedIn_of_file h.shaped hpub hget
      refine ⟨⟨hshaped, h.nodup⟩, ?_, ?_⟩
      · simp only [Registry.apply, Store.registry, hpub, hfile]
        rfl
      · simp only [Registry.apply, Store.registry, hpub, hfile]
        rw [hpublished]

/-- **A request with plain names** changes the registry, and is answered, as the registry says. -/
theorem serve_follows (h : WellKept cwd s) {r : Request} (hr : r.WellNamed)
    (address : Option Bytes) :
    Follows cwd s (r.change address) (serve (posix cwd) address r s) := by
  cases r with
  | register u => exact registerUser.act_follows h hr.user
  | unregister u => exact unregisterUser.act_follows h hr.user
  | connect u port => exact connectUser.act_follows h hr.user address port.text
  | disconnect u => exact disconnectUser.act_follows h hr.user
  | publish u f d =>
    obtain ⟨hf, hlen⟩ := hr.file f rfl
    exact publishFile.act_follows h d hr.user hf hlen
  | delete u f =>
    obtain ⟨hf, hlen⟩ := hr.file f rfl
    exact deleteFile.act_follows h hr.user hf hlen

end Requests

/-! ## Listings -/

/-- The reply to an operation, as far as the registry says it, and the registry afterwards. The
order of a listing is open. -/
inductive Replies (r : ServerRegistry) (allocated : Bool) (address : Option Bytes) :
    Operation → Bytes → ServerRegistry → Prop
  | change (request : Request) :
    Replies r allocated address (.change request)
      (htonl (r.apply (request.change address)).1.status) (r.apply (request.change address)).2
  | users (userName : Line) (list : List UserServerData) (hallocated : allocated = true)
      (hnodup : (userNames list).Nodup)
      (hlist : ∀ d, d ∈ list ↔ r.connected d.name = some (d.port, d.ipAddress)) :
    Replies r allocated address (.listUsers userName)
      (htonl success ++ htonl list.length ++ list.flatMap sendUser) r
  | noMemory (userName : Line) (hallocated : allocated = false) :
    Replies r allocated address (.listUsers userName) (htonl otherError3) r
  | files (useropName userName : Line) (files : Bytes → Option Bytes) (names : List Bytes)
      (hfiles : r.published userName.text = some files) (hnodup : names.Nodup)
      (hnames : ∀ f, f ∈ names ↔ files f ≠ none) :
    Replies r allocated address (.listContent useropName userName)
      (htonl success ++ htonl names.length ++ names.flatMap sendField) r
  | nobody (useropName userName : Line) (hnobody : r.published userName.text = none) :
    Replies r allocated address (.listContent useropName userName) (htonl noContentToList) r

def Operation.WellNamed : Operation → Prop
  | .change request => request.WellNamed
  | .listUsers _ => True
  | .listContent _ userName => ValidName userName.text

/-- No reply leaves somebody connected who is not registered. -/
theorem Replies.backed {r r' : ServerRegistry} {allocated : Bool} {address : Option Bytes}
    {op : Operation} {reply : Bytes} (h : Replies r allocated address op reply r')
    (hr : r.Backed) : r'.Backed := by
  cases h with
  | change request => exact hr.apply _
  | users _ _ _ _ _ => exact hr
  | noMemory _ _ => exact hr
  | files _ _ _ _ _ _ _ => exact hr
  | nobody _ _ _ => exact hr

section Listings

variable {cwd : Pos} {s : Store}

/-- The records are those of the registry. -/
theorem mem_connected_registry (h : WellKept cwd s) (d : UserServerData) :
    d ∈ s.connected ↔ (s.registry cwd).connected d.name = some (d.port, d.ipAddress) := by
  change d ∈ s.connected ↔ connectedAt s.connected d.name = _
  unfold connectedAt
  rw [Option.map_eq_some_iff]
  constructor
  · intro hd
    refine ⟨d, ?_, rfl⟩
    cases hfind : s.connected.find? fun d' => d'.name = d.name with
    | none => exact absurd (List.find?_eq_none.1 hfind d hd) (by simp)
    | some d' =>
      have hname : d'.name = d.name := by simpa using List.find?_some hfind
      have hinj := List.inj_on_of_nodup_map h.nodup
      rw [hinj (List.mem_of_find?_eq_some hfind) hd hname]
  · rintro ⟨d', hfind, hd'⟩
    have hname : d'.name = d.name := by simpa using List.find?_some hfind
    obtain ⟨hport, hip⟩ := Prod.mk.inj hd'
    have hsame : d' = d := by
      cases d
      cases d'
      simp_all
    exact hsame ▸ List.mem_of_find?_eq_some hfind

theorem fileNames_listing (t : Tree) (p : Pos) : fileNames (listing t p) = t.names p := by
  unfold fileNames listing
  rw [List.filter_cons_of_neg (by simp), List.filter_cons_of_neg (by simp), List.filter_eq_self]
  intro n hn
  obtain ⟨e, he⟩ := Option.isSome_iff_exists.1 (Tree.mem_names.1 hn)
  simpa using not_dots_of_validName (Tree.validName_of_get he)

/-- LIST_CONTENT sends the names that the user has published, in the order of the directory. -/
theorem listContent.act_replies (h : WellKept cwd s) (allocated : Bool) (address : Option Bytes)
    (useropName : Line) {userName : Line} (hu : ValidName userName.text) :
    Replies (s.registry cwd) allocated address (.listContent useropName userName)
      (listContent.act (posix cwd) userName.text s) (s.registry cwd) := by
  unfold listContent.act
  cases hpub : publishedIn cwd s.tree userName.text with
  | none =>
    rw [isusrRegistered_of_absent h.shaped hu hpub, if_neg (by decide)]
    exact .nobody useropName userName hpub
  | some files =>
    have hopen : (posix cwd).opendir s.tree (userDirPath userName.text) =
        some (listing s.tree (usersPos cwd ++ [userName.text])) :=
      opendir_userDirPath.2 ⟨_, resolve_userDirPath_of_some hu hpub, rfl⟩
    rw [isusrRegistered_of_some h.shaped hpub, if_pos (by decide), hopen]
    dsimp only
    rw [fileNames_listing]
    refine .files useropName userName files _ hpub (s.tree.names_nodup _) fun f => ?_
    rw [Tree.mem_names, get_of_publishedIn h.shaped hpub, Option.isSome_map,
      Option.isSome_iff_ne_none]

/-- **An operation** with plain names is answered as the registry says. -/
theorem run_replies (h : WellKept cwd s) {op : Operation} (hop : op.WellNamed) (allocated : Bool)
    (address : Option Bytes) :
    WellKept cwd (op.run (posix cwd) allocated address s).2 ∧
      Replies (s.registry cwd) allocated address op (op.run (posix cwd) allocated address s).1
        ((op.run (posix cwd) allocated address s).2.registry cwd) := by
  cases op with
  | change request =>
    obtain ⟨hkept, hstatus, hregistry⟩ := serve_follows h hop address
    refine ⟨hkept, ?_⟩
    unfold Operation.run
    dsimp only
    rw [hstatus, hregistry]
    exact .change request
  | listUsers userName =>
    refine ⟨h, ?_⟩
    unfold Operation.run listUsers.act
    dsimp only
    cases allocated with
    | false => exact .noMemory userName rfl
    | true =>
      have htake : (getElements s.connected).take (listGetSize s.connected) = s.connected :=
        List.take_length
      rw [if_pos rfl, htake]
      exact .users userName s.connected rfl h.nodup (mem_connected_registry h)
  | listContent useropName userName =>
    exact ⟨h, listContent.act_replies h allocated address useropName hop⟩

end Listings

/-! ## Runs -/

/-- A connection that the server serves, with the reply that it sends, or a new start of the server
on the tree that it has left. -/
inductive Served
  | request (locals : Locals) (arrived : Arrived) (address : Option Bytes) (allocated : Bool)
    (reply : Bytes)
  | restart

namespace Served

/-- What happens to the store. -/
def Step (cwd : Pos) (s : Store) (e : Served) (s' : Store) : Prop :=
  match e with
  | .request locals arrived address allocated reply =>
    processRequest (posix cwd) allocated locals ⟨received arrived.bytes, address⟩ s = (reply, s')
  | .restart => initP2pService (posix cwd) s.tree = s'

/-- What happens to the registry. Bytes that name no operation leave it. -/
def Registers (r : ServerRegistry) (e : Served) (r' : ServerRegistry) : Prop :=
  match e with
  | .request locals arrived address allocated reply =>
    match operationOf locals arrived with
    | some op => Replies r allocated address op reply r'
    | none => r = r'
  | .restart => r.restarted = r'

def WellNamed : Served → Prop
  | .request locals arrived _ _ _ => ∀ op, operationOf locals arrived = some op → op.WellNamed
  | .restart => True

end Served

section Runs

variable {cwd : Pos} {t : Tree} {s s' : Store}

/-- Where there was no `./Users`, the first registry is empty. -/
theorem shaped_of_new (hcwd : t.get cwd = some .dir) (hnew : t.get (usersPos cwd) = none) :
    Shaped cwd (initP2pService (posix cwd) t).tree ∧
      (initP2pService (posix cwd) t).registry cwd = Registry.empty := by
  obtain ⟨t', hcreate⟩ := Option.isSome_iff_exists.1
    (Tree.create_isSome_iff (e := .dir).2 ⟨hcwd, hnew, validName_users⟩)
  have hmkdir : (posix cwd).mkdir t usersDirectory = some t' := by
    refine posix.mkdir_eq_some_iff.2 ⟨cwd, users, ?_, hcreate⟩
    have hcs : stripTrailing (components usersDirectory) = [dot] ++ [users] := by decide
    have horigin : origin cwd usersDirectory = cwd := origin_usersDirectory cwd []
    rw [hcs, horigin]
    refine leaf_eq_some_iff.2 ⟨[dot], rfl, ?_, hcwd⟩
    rw [walk_cons, step_dot hcwd]
    rfl
  have hinit : initP2pService (posix cwd) t = ⟨t', []⟩ := by
    unfold initP2pService
    rw [hmkdir]
    rfl
  have hget := Tree.get_create hcreate
  have husers : t'.get (usersPos cwd) = some .dir := by
    rw [hget]
    exact if_pos rfl
  have hnobody : ∀ u, t'.get (usersPos cwd ++ [u]) = none := by
    intro u
    rw [hget, if_neg]
    · exact Tree.get_snoc_of_absent hnew u
    · intro heq
      have hlen := congrArg List.length heq
      simp [usersPos] at hlen
  rw [hinit]
  refine ⟨⟨husers, ?_, ?_⟩, ?_⟩
  · intro u e he
    rw [hnobody] at he
    cases he
  · intro u f e he
    rw [Tree.get_snoc_of_absent (hnobody u)] at he
    cases he
  · have hpublished : publishedIn cwd t' = fun _ => none := by
      funext u
      exact publishedIn_of_absent (hnobody u)
    unfold Store.registry Registry.empty
    rw [hpublished]
    rfl

/-- `main` finds `./Users`, and nobody is connected. -/
theorem initP2pService_of_shaped (ht : Shaped cwd t) :
    initP2pService (posix cwd) t = ⟨t, []⟩ := by
  have hfails : (posix cwd).mkdir t usersDirectory = none := by
    cases hmkdir : (posix cwd).mkdir t usersDirectory with
    | none => rfl
    | some t' =>
      obtain ⟨p, n, hleaf, hcreate⟩ := posix.mkdir_eq_some_iff.1 hmkdir
      obtain ⟨-, hnew, hn⟩ := Tree.create_isSome_iff.1 (Option.isSome_of_eq_some hcreate)
      obtain ⟨ds, hds, hwalk, hdir⟩ := leaf_eq_some_iff.1 hleaf
      have hcs : stripTrailing (components usersDirectory) = [dot] ++ [users] := by decide
      obtain ⟨rfl, hlast⟩ := List.append_inj' (hcs.symm.trans hds) rfl
      obtain rfl := List.singleton_inj.1 hlast
      have hcwd : walk t cwd [dot] = some cwd := by
        rw [walk_cons, step_dot (Tree.get_parent ht.users)]
        rfl
      have horigin : origin cwd usersDirectory = cwd := origin_usersDirectory cwd []
      rw [horigin, hcwd] at hwalk
      rw [← Option.some.inj hwalk] at hnew
      exact absurd (ht.users.symm.trans hnew) (Option.some_ne_none _)
  unfold initP2pService
  rw [hfails]
  rfl

/-- **One step** of the service is one of the registry. -/
theorem Served.step_registers {e : Served} (h : WellKept cwd s) (hnamed : e.WellNamed)
    (hs : e.Step cwd s s') :
    WellKept cwd s' ∧ e.Registers (s.registry cwd) (s'.registry cwd) := by
  cases e with
  | restart =>
    obtain rfl : initP2pService (posix cwd) s.tree = s' := hs
    rw [initP2pService_of_shaped h.shaped]
    exact ⟨⟨h.shaped, List.nodup_nil⟩, rfl⟩
  | request locals arrived address allocated reply =>
    have hprocess : processRequest (posix cwd) allocated locals
        ⟨received arrived.bytes, address⟩ s = (reply, s') := hs
    unfold Served.Registers
    rw [processRequest_arrived] at hprocess
    dsimp only
    cases hop : operationOf locals arrived with
    | none =>
      rw [hop] at hprocess
      obtain ⟨-, rfl⟩ := Prod.mk.inj hprocess
      exact ⟨h, rfl⟩
    | some op =>
      rw [hop] at hprocess
      obtain ⟨hkept, hreplies⟩ := run_replies h (hnamed op hop) allocated address
      dsimp only at hprocess ⊢
      rw [hprocess] at hkept hreplies
      exact ⟨hkept, hreplies⟩

/-- Every step of the registry keeps the connected among the registered. -/
theorem Served.Registers.backed {r r' : ServerRegistry} {e : Served} (h : e.Registers r r')
    (hr : r.Backed) : r'.Backed := by
  cases e with
  | restart =>
    obtain rfl : r.restarted = r' := h
    exact Registry.backed_restarted r
  | request locals arrived address allocated reply =>
    unfold Served.Registers at h
    dsimp only at h
    split at h
    · exact h.backed hr
    · exact h ▸ hr

/-- **The server is a registry.** In a run of connections with plain names and of new starts, on a
tree whose `./Users` holds directories of files, every reply and every change is the registry's, and
only registered users are connected. -/
theorem registers_of_run {steps : List (Store × Served)}
    (h : Run (fun s e s' => e.Step cwd s s') (initP2pService (posix cwd) t) steps s)
    (ht : Shaped cwd (initP2pService (posix cwd) t).tree)
    (hnamed : Guarded (fun _ e => e.WellNamed) steps) :
    Run (fun r e r' => e.Registers r r') ((initP2pService (posix cwd) t).registry cwd)
        (steps.map fun x => (x.1.registry cwd, x.2)) (s.registry cwd) ∧
      (s.registry cwd).Backed := by
  have hkept : WellKept cwd (initP2pService (posix cwd) t) := ⟨ht, List.nodup_nil⟩
  obtain ⟨-, hrun⟩ := h.image (f := Store.registry cwd) hkept
    (fun s e s' hs he hstep => Served.step_registers hs he hstep) hnamed
  exact ⟨hrun, hrun.invariant (fun u _ => rfl) fun r e r' hr hstep => hstep.backed hr⟩

/-- The bytes of a request that names alice alone. -/
def aliceRequest (command reply : Bytes) : Served :=
  .request .zeros (.of (command ++ nul :: cstring "alice" ++ [nul])) none true reply

/-- Alice is registered, and the server is started again. -/
theorem registers_alice :
    Run (fun r e r' => e.Registers r r') ((initP2pService (posix []) .empty).registry [])
        [((initP2pService (posix []) .empty).registry [],
            aliceRequest Command.register (htonl success)),
          (aliceRegistered.registry [], .restart)]
        ((initP2pService (posix []) aliceRegistered.tree).registry []) ∧
      ((initP2pService (posix []) aliceRegistered.tree).registry []).Backed := by
  have hrun : Run (fun s e s' => Served.Step [] s e s') (initP2pService (posix []) .empty)
      [(initP2pService (posix []) .empty, aliceRequest Command.register (htonl success)),
        (aliceRegistered, .restart)] (initP2pService (posix []) aliceRegistered.tree) :=
    (Run.nil.snoc (a := aliceRequest Command.register (htonl success)) rfl).snoc (a := .restart) rfl
  have hshaped : Shaped [] (initP2pService (posix []) .empty).tree :=
    (shaped_of_new (t := .empty) rfl rfl).1
  have hop : operationOf .zeros
      (.of (Command.register ++ nul :: cstring "alice" ++ [nul])) =
        some (.change (.register (Line.of (cstring "alice")))) := by decide
  have hvalid : ValidName (cstring "alice") := by decide
  refine registers_of_run hrun hshaped ?_
  intro x hx
  rw [List.mem_cons, List.mem_singleton] at hx
  obtain rfl | rfl := hx
  · intro op hop'
    obtain rfl := Option.some.inj (hop.symm.trans hop')
    exact ⟨hvalid, nofun⟩
  · trivial

end Runs

end DistributedSystems.Lab
