import DistributedSystems.Lab.ServerC.Effects

/-!
# The storage procedures (`serverrpc/storage_server.c`)

The procedures of the RPC daemon, each with its result, and for the six that change the store their
outcomes with the conditions. They take the answers of the lookups for truth values, so that the -1
of a directory that cannot be opened counts as an entry that was found. Arguments fit the arrays
that they are copied to.
-/

namespace DistributedSystems.Lab

open Fs

structure ConnectArguments where
  name : Bytes
  port : Bytes
  ip : Bytes
deriving DecidableEq, Repr

structure PublishArguments where
  name : Bytes
  fileName : Bytes
  fileDescription : Bytes
deriving DecidableEq, Repr

structure DeleteArguments where
  name : Bytes
  fileName : Bytes
deriving DecidableEq, Repr

def registerUserRpc1Svc (c : SysCalls) (arg1 : Bytes) (s : Store) : Int × Store :=
  if isusrRegistered c s.tree arg1 ≠ 0 then (1, s)
  else
    match c.mkdir s.tree (userPath arg1) with
    | none => (2, s)
    | some t => (0, { s with tree := t })

def unregisterUserRpc1Svc (c : SysCalls) (arg1 : Bytes) (s : Store) : Int × Store :=
  if isusrRegistered c s.tree arg1 = 0 then (1, s)
  else
    let r := removeDirectory c s.tree (userPath arg1)
    if r.1 = -1 then (2, { s with tree := r.2 })
    else (0, { tree := r.2, connected := deleteElement arg1 s.connected })

def connectUserRpc1Svc (c : SysCalls) (arg1 : ConnectArguments) (s : Store) : Int × Store :=
  if isusrRegistered c s.tree arg1.name = 0 then (1, s)
  else if findElementByname s.connected arg1.name ≠ 0 then (2, s)
  else (0, { s with connected := addElement ⟨arg1.name, arg1.port, arg1.ip⟩ s.connected })

def disconnectUserRpc1Svc (c : SysCalls) (arg1 : Bytes) (s : Store) : Int × Store :=
  if isusrRegistered c s.tree arg1 = 0 then (1, s)
  else if findElementByname s.connected arg1 = 0 then (2, s)
  else (0, { s with connected := deleteElement arg1 s.connected })

def publishFileRpc1Svc (c : SysCalls) (arg1 : PublishArguments) (s : Store) : Int × Store :=
  if isusrRegistered c s.tree arg1.name = 0 then (1, s)
  else if findElementByname s.connected arg1.name = 0 then (2, s)
  else
    let dirPath := userDirPath arg1.name
    if fileExists c s.tree arg1.fileName dirPath ≠ 0 then (3, s)
    else
      match c.openCreate s.tree (strncat dirPath arg1.fileName arg1.fileName.length) with
      | none => (4, s)
      | some (t, file) =>
        match c.write t file arg1.fileDescription with
        | none => (4, { s with tree := t })
        | some t' => (0, { s with tree := t' })

def deleteFileRpc1Svc (c : SysCalls) (arg1 : DeleteArguments) (s : Store) : Int × Store :=
  let dirPath := userDirPath arg1.name
  if fileExists c s.tree arg1.fileName dirPath = 0 then (3, s)
  else
    match c.remove s.tree (strncat dirPath arg1.fileName arg1.fileName.length) with
    | none => (4, s)
    | some t => (0, { s with tree := t })

/-! ## Listings -/

structure UserServer where
  name : Bytes
  port : Bytes
  ip : Bytes
deriving DecidableEq, Repr

structure Title where
  fileName : Bytes
deriving DecidableEq, Repr

/-- `allocated` says whether `get_elements` got its array; the other allocations succeed. Without it
the list is one user whose fields all say -1. -/
def listUsers1Svc (allocated : Bool) (s : Store) : List UserServer :=
  if allocated then
    (getElements s.connected).map fun user => ⟨user.name, user.port, user.ipAddress⟩
  else [⟨cstring "-1", cstring "-1", cstring "-1"⟩]

/-- A failure is one title, with a number for a name. The first argument is not used. -/
def listContent1Svc (c : SysCalls) (arg2 : Bytes) (s : Store) : List Title :=
  if isusrRegistered c s.tree arg2 = 0 then [⟨cstring "-2"⟩]
  else
    match c.opendir s.tree (userDirPath arg2) with
    | none => [⟨cstring "-1"⟩]
    | some entries => (fileNames entries).map Title.mk

/-! ## Outcomes -/

section Outcomes

variable (c : SysCalls) (s : Store)

theorem registerUserRpc1Svc_cases (u : Bytes) :
    (∃ t, isusrRegistered c s.tree u = 0 ∧ c.mkdir s.tree (userPath u) = some t ∧
      registerUserRpc1Svc c u s = (0, { s with tree := t })) ∨
    ((registerUserRpc1Svc c u s).1 ≠ 0 ∧ (registerUserRpc1Svc c u s).2 = s) := by
  unfold registerUserRpc1Svc
  by_cases h0 : isusrRegistered c s.tree u = 0
  · cases hm : c.mkdir s.tree (userPath u) with
    | none => exact Or.inr (by simp [h0])
    | some t => exact Or.inl ⟨t, h0, rfl, by simp [h0]⟩
  · exact Or.inr (by simp [h0])

theorem unregisterUserRpc1Svc_cases (u : Bytes) :
    (isusrRegistered c s.tree u ≠ 0 ∧ (removeDirectory c s.tree (userPath u)).1 ≠ -1 ∧
      unregisterUserRpc1Svc c u s = (0,
        { tree := (removeDirectory c s.tree (userPath u)).2,
          connected := deleteElement u s.connected })) ∨
    (isusrRegistered c s.tree u ≠ 0 ∧ (removeDirectory c s.tree (userPath u)).1 = -1 ∧
      unregisterUserRpc1Svc c u s = (2,
        { s with tree := (removeDirectory c s.tree (userPath u)).2 })) ∨
    (isusrRegistered c s.tree u = 0 ∧ unregisterUserRpc1Svc c u s = (1, s)) := by
  unfold unregisterUserRpc1Svc
  by_cases h0 : isusrRegistered c s.tree u = 0
  · exact Or.inr (Or.inr ⟨h0, by simp [h0]⟩)
  · by_cases hr : (removeDirectory c s.tree (userPath u)).1 = -1
    · exact Or.inr (Or.inl ⟨h0, hr, by simp [h0, hr]⟩)
    · exact Or.inl ⟨h0, hr, by simp [h0, hr]⟩

theorem connectUserRpc1Svc_cases (a : ConnectArguments) :
    (isusrRegistered c s.tree a.name ≠ 0 ∧ a.name ∉ userNames s.connected ∧
      connectUserRpc1Svc c a s =
        (0, { s with connected := addElement ⟨a.name, a.port, a.ip⟩ s.connected })) ∨
    ((isusrRegistered c s.tree a.name = 0 ∨ a.name ∈ userNames s.connected) ∧
      (connectUserRpc1Svc c a s).1 ≠ 0 ∧ (connectUserRpc1Svc c a s).2 = s) := by
  simp only [connectUserRpc1Svc, findElementByname_ne_zero_iff]
  by_cases h0 : isusrRegistered c s.tree a.name = 0
  · exact Or.inr ⟨Or.inl h0, by simp [h0]⟩
  · by_cases hu : a.name ∈ userNames s.connected
    · exact Or.inr ⟨Or.inr hu, by simp [h0, hu]⟩
    · exact Or.inl ⟨h0, hu, by simp [h0, hu]⟩

theorem disconnectUserRpc1Svc_cases (u : Bytes) :
    (isusrRegistered c s.tree u ≠ 0 ∧ u ∈ userNames s.connected ∧
      disconnectUserRpc1Svc c u s =
        (0, { s with connected := deleteElement u s.connected })) ∨
    ((disconnectUserRpc1Svc c u s).1 ≠ 0 ∧ (disconnectUserRpc1Svc c u s).2 = s) := by
  simp only [disconnectUserRpc1Svc, findElementByname_eq_zero_iff]
  by_cases h0 : isusrRegistered c s.tree u = 0
  · exact Or.inr (by simp [h0])
  · by_cases hu : u ∈ userNames s.connected
    · exact Or.inl ⟨h0, hu, by simp [h0, hu]⟩
    · exact Or.inr (by simp [h0, hu])

/-- PUBLISH touches the tree only through one opened file, in a directory that could be read. -/
theorem publishFileRpc1Svc_cases (a : PublishArguments) :
    (∃ t fd, isusrRegistered c s.tree a.name ≠ 0 ∧ a.name ∈ userNames s.connected ∧
      fileExists c s.tree a.fileName (userDirPath a.name) = 0 ∧
      c.openCreate s.tree (strncat (userDirPath a.name) a.fileName a.fileName.length) =
        some (t, fd) ∧
      ((∃ t', c.write t fd a.fileDescription = some t' ∧
          publishFileRpc1Svc c a s = (0, { s with tree := t' })) ∨
        publishFileRpc1Svc c a s = (4, { s with tree := t }))) ∨
    ((publishFileRpc1Svc c a s).1 ≠ 0 ∧ (publishFileRpc1Svc c a s).2 = s) := by
  simp only [publishFileRpc1Svc, findElementByname_eq_zero_iff]
  by_cases h0 : isusrRegistered c s.tree a.name = 0
  · exact Or.inr (by simp [h0])
  · by_cases hu : a.name ∈ userNames s.connected
    · by_cases hf : fileExists c s.tree a.fileName (userDirPath a.name) = 0
      · rw [if_neg h0, if_neg (not_not.2 hu), if_neg (not_not.2 hf)]
        cases ho : c.openCreate s.tree
            (strncat (userDirPath a.name) a.fileName a.fileName.length) with
        | none => exact Or.inr (by simp)
        | some r =>
          obtain ⟨t, fd⟩ := r
          refine Or.inl ⟨t, fd, h0, hu, hf, rfl, ?_⟩
          cases hw : c.write t fd a.fileDescription with
          | none => exact Or.inr (by simp [hw])
          | some t' => exact Or.inl ⟨t', rfl, by simp [hw]⟩
      · exact Or.inr (by simp [h0, hu, hf])
    · exact Or.inr (by simp [h0, hu])

theorem deleteFileRpc1Svc_cases (a : DeleteArguments) :
    (∃ t, fileExists c s.tree a.fileName (userDirPath a.name) ≠ 0 ∧
      c.remove s.tree (strncat (userDirPath a.name) a.fileName a.fileName.length) = some t ∧
      deleteFileRpc1Svc c a s = (0, { s with tree := t })) ∨
    ((deleteFileRpc1Svc c a s).1 ≠ 0 ∧ (deleteFileRpc1Svc c a s).2 = s) := by
  simp only [deleteFileRpc1Svc]
  by_cases h0 : fileExists c s.tree a.fileName (userDirPath a.name) = 0
  · exact Or.inr (by simp [h0])
  · cases hr : c.remove s.tree (strncat (userDirPath a.name) a.fileName a.fileName.length) with
    | none => exact Or.inr (by simp [h0])
    | some t => exact Or.inl ⟨t, h0, rfl, by simp [h0]⟩

end Outcomes

end DistributedSystems.Lab
