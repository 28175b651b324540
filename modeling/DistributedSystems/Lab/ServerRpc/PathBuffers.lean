import DistributedSystems.Lab.ServerRpc.PublishOutcomes
import DistributedSystems.Support.CString

/-!
# The buffers of the path strings

Eleven places allocate an array for a path, with a size that is computed there, and print the path
into it. Here are the handlers once more with that array (`buffered`), each with the proof that it
does what the handler does on strings. The path fits except where `strncat` appends a file name to
it: the two implementations of PUBLISH and of DELETE count the directory only (`path_fits_iff`).
-/

namespace DistributedSystems.Lab

open Fs Support

abbrev PathBuffer := CBuffer UInt8

/-- The result of a handler with the array of its path as it is freed, if the handler comes as far
as to allocate it. -/
abbrev Buffered (ρ : Type) := ρ × Option PathBuffer

/-! ## `PeerToPeer.c` -/

section PeerToPeer

variable (c : SysCalls) (s : Store)

def registerUser.buffered (userName : Line) : Buffered (Int × Store) :=
  let registered := isusrRegistered c s.tree userName.text
  let dirPath : PathBuffer := .malloc (userName.length + 2 + usersDirectory.length + 1)
  if registered = 0 then
    let dirPath := dirPath.sprintf (userPath userName.text)
    match c.mkdir s.tree dirPath.string with
    | none => ((otherError2, s), some dirPath)
    | some t => ((success, { s with tree := t }), some dirPath)
  else if registered = 1 then ((userRegistered, s), some dirPath)
  else ((otherError2, s), some dirPath)

def unregisterUser.buffered (userName : Line) : Buffered (Int × Store) :=
  let registered := isusrRegistered c s.tree userName.text
  let dirPath : PathBuffer := .malloc (userName.length + 2 + usersDirectory.length + 1)
  if registered = 1 then
    let dirPath := dirPath.sprintf (userPath userName.text)
    let r := removeDirectory c s.tree dirPath.string
    if r.1 = -1 then ((otherError2, { s with tree := r.2 }), some dirPath)
    else
      ((success, { tree := r.2, connected := deleteElement userName.text s.connected }),
        some dirPath)
  else if registered = 0 then ((userNotRegistered, s), some dirPath)
  else ((otherError2, s), some dirPath)

def publishFile.buffered (userName fileName fileDescription : Line) : Buffered (Int × Store) :=
  if isusrRegistered c s.tree userName.text = 1 then
    if findElementByname s.connected userName.text ≠ 0 then
      let dirPath : PathBuffer := .malloc (usersDirectory.length + 1 + userName.length + 2)
      let dirPath := dirPath.sprintf (userDirPath userName.text)
      let file := fileExists c s.tree fileName.text dirPath.string
      if file = 0 then
        let dirPath := dirPath.strncat fileName.text fileName.length
        match c.openCreate s.tree dirPath.string with
        | none => ((otherError4, s), some dirPath)
        | some (t, fd) =>
          match c.write t fd (fileDescription.text.take fileDescription.length) with
          | none => ((otherError4, { s with tree := t }), some dirPath)
          | some t' => ((success, { s with tree := t' }), some dirPath)
      else if file = 1 then ((filePublished, s), some dirPath)
      else ((otherError4, s), some dirPath)
    else ((userNotConnected, s), none)
  else ((userNotRegistered, s), none)

def deleteFile.buffered (userName fileName : Line) : Buffered (Int × Store) :=
  let dirPath : PathBuffer := .malloc (usersDirectory.length + 1 + userName.length + 2)
  let dirPath := dirPath.sprintf (userDirPath userName.text)
  let file := fileExists c s.tree fileName.text dirPath.string
  if file = 1 then
    let dirPath := dirPath.strncat fileName.text fileName.length
    match c.remove s.tree dirPath.string with
    | none => ((otherError4, s), some dirPath)
    | some t => ((success, { s with tree := t }), some dirPath)
  else if file = 0 then ((fileNotPublished, s), some dirPath)
  else ((otherError4, s), some dirPath)

/-- The array of `list_content` is an automatic one. -/
def listContent.buffered (userName : Line) : Buffered Bytes :=
  let dirPath : PathBuffer := .malloc (userName.length + 2 + usersDirectory.length + 1)
  let dirPath := dirPath.sprintf (userDirPath userName.text)
  if isusrRegistered c s.tree userName.text ≠ 0 then
    match c.opendir s.tree dirPath.string with
    | none => (htonl otherError4, some dirPath)
    | some entries =>
      (htonl success ++ htonl (fileNames entries).length ++ (fileNames entries).flatMap sendField,
        some dirPath)
  else (htonl noContentToList, some dirPath)

/-- With its array beside it the handler does what it does without. -/
theorem registerUser.buffered_fst (u : Line) :
    (registerUser.buffered c s u).1 = registerUser.act c u.text s := by
  unfold registerUser.buffered registerUser.act
  dsimp only
  rw [CBuffer.string_sprintf]
  split
  · cases c.mkdir s.tree (userPath u.text) <;> rfl
  · split <;> rfl

theorem unregisterUser.buffered_fst (u : Line) :
    (unregisterUser.buffered c s u).1 = unregisterUser.act c u.text s := by
  unfold unregisterUser.buffered unregisterUser.act
  dsimp only
  rw [CBuffer.string_sprintf]
  split
  · split <;> rfl
  · split <;> rfl

theorem publishFile.buffered_fst (u f d : Line) :
    (publishFile.buffered c s u f d).1 = publishFile.act c u f d s := by
  unfold publishFile.buffered publishFile.act
  dsimp only
  rw [CBuffer.string_sprintf, CBuffer.string_strncat_sprintf]
  split
  · split
    · split
      · rw [strncat]
        cases c.openCreate s.tree (userDirPath u.text ++ f.text.take f.length) with
        | none => rfl
        | some r =>
          dsimp only
          cases c.write r.1 r.2 (d.text.take d.length) <;> rfl
      · split <;> rfl
    · rfl
  · rfl

theorem deleteFile.buffered_fst (u f : Line) :
    (deleteFile.buffered c s u f).1 = deleteFile.act c u f s := by
  unfold deleteFile.buffered deleteFile.act
  dsimp only
  rw [CBuffer.string_sprintf, CBuffer.string_strncat_sprintf]
  split
  · rw [strncat]
    cases c.remove s.tree (userDirPath u.text ++ f.text.take f.length) <;> rfl
  · split <;> rfl

theorem listContent.buffered_fst (u : Line) :
    (listContent.buffered c s u).1 = listContent.act c u.text s := by
  unfold listContent.buffered listContent.act
  dsimp only
  rw [CBuffer.string_sprintf]
  split
  · cases c.opendir s.tree (userDirPath u.text) <;> rfl
  · rfl

end PeerToPeer

/-! ## `storage_server.c` -/

section StorageServer

variable (c : SysCalls) (s : Store)

def registerUserRpc1Svc.buffered (arg1 : Bytes) : Buffered (Int × Store) :=
  if isusrRegistered c s.tree arg1 ≠ 0 then ((1, s), none)
  else
    let dirPath : PathBuffer := .malloc (arg1.length + 2 + usersDirectory.length + 1)
    let dirPath := dirPath.sprintf (userPath arg1)
    match c.mkdir s.tree dirPath.string with
    | none => ((2, s), some dirPath)
    | some t => ((0, { s with tree := t }), some dirPath)

def unregisterUserRpc1Svc.buffered (arg1 : Bytes) : Buffered (Int × Store) :=
  if isusrRegistered c s.tree arg1 = 0 then ((1, s), none)
  else
    let dirPath : PathBuffer := .malloc (arg1.length + 2 + usersDirectory.length + 1)
    let dirPath := dirPath.sprintf (userPath arg1)
    let r := removeDirectory c s.tree dirPath.string
    if r.1 = -1 then ((2, { s with tree := r.2 }), some dirPath)
    else ((0, { tree := r.2, connected := deleteElement arg1 s.connected }), some dirPath)

def publishFileRpc1Svc.buffered (arg1 : PublishArguments) : Buffered (Int × Store) :=
  if isusrRegistered c s.tree arg1.name = 0 then ((1, s), none)
  else if findElementByname s.connected arg1.name = 0 then ((2, s), none)
  else
    let dirPath : PathBuffer := .malloc (usersDirectory.length + 1 + arg1.name.length + 2)
    let dirPath := dirPath.sprintf (userDirPath arg1.name)
    if fileExists c s.tree arg1.fileName dirPath.string ≠ 0 then ((3, s), some dirPath)
    else
      let dirPath := dirPath.strncat arg1.fileName arg1.fileName.length
      match c.openCreate s.tree dirPath.string with
      | none => ((4, s), some dirPath)
      | some (t, file) =>
        match c.write t file arg1.fileDescription with
        | none => ((4, { s with tree := t }), some dirPath)
        | some t' => ((0, { s with tree := t' }), some dirPath)

def deleteFileRpc1Svc.buffered (arg1 : DeleteArguments) : Buffered (Int × Store) :=
  let dirPath : PathBuffer := .malloc (usersDirectory.length + 1 + arg1.name.length + 2)
  let dirPath := dirPath.sprintf (userDirPath arg1.name)
  if fileExists c s.tree arg1.fileName dirPath.string = 0 then ((3, s), some dirPath)
  else
    let dirPath := dirPath.strncat arg1.fileName arg1.fileName.length
    match c.remove s.tree dirPath.string with
    | none => ((4, s), some dirPath)
    | some t => ((0, { s with tree := t }), some dirPath)

def listContent1Svc.buffered (arg2 : Bytes) : Buffered (List Title) :=
  if isusrRegistered c s.tree arg2 = 0 then ([⟨cstring "-2"⟩], none)
  else
    let dirPath : PathBuffer := .malloc (arg2.length + 2 + usersDirectory.length + 1)
    let dirPath := dirPath.sprintf (userDirPath arg2)
    match c.opendir s.tree dirPath.string with
    | none => ([⟨cstring "-1"⟩], some dirPath)
    | some entries => ((fileNames entries).map Title.mk, some dirPath)

theorem registerUserRpc1Svc.buffered_fst (u : Bytes) :
    (registerUserRpc1Svc.buffered c s u).1 = registerUserRpc1Svc c u s := by
  unfold registerUserRpc1Svc.buffered registerUserRpc1Svc
  dsimp only
  rw [CBuffer.string_sprintf]
  split
  · rfl
  · cases c.mkdir s.tree (userPath u) <;> rfl

theorem unregisterUserRpc1Svc.buffered_fst (u : Bytes) :
    (unregisterUserRpc1Svc.buffered c s u).1 = unregisterUserRpc1Svc c u s := by
  unfold unregisterUserRpc1Svc.buffered unregisterUserRpc1Svc
  dsimp only
  rw [CBuffer.string_sprintf]
  split
  · rfl
  · split <;> rfl

theorem publishFileRpc1Svc.buffered_fst (a : PublishArguments) :
    (publishFileRpc1Svc.buffered c s a).1 = publishFileRpc1Svc c a s := by
  unfold publishFileRpc1Svc.buffered publishFileRpc1Svc
  dsimp only
  rw [CBuffer.string_sprintf, CBuffer.string_strncat_sprintf]
  split
  · rfl
  · split
    · rfl
    · split
      · rfl
      · rw [strncat]
        cases c.openCreate s.tree
            (userDirPath a.name ++ a.fileName.take a.fileName.length) with
        | none => rfl
        | some r =>
          dsimp only
          cases c.write r.1 r.2 a.fileDescription <;> rfl

theorem deleteFileRpc1Svc.buffered_fst (a : DeleteArguments) :
    (deleteFileRpc1Svc.buffered c s a).1 = deleteFileRpc1Svc c a s := by
  unfold deleteFileRpc1Svc.buffered deleteFileRpc1Svc
  dsimp only
  rw [CBuffer.string_sprintf, CBuffer.string_strncat_sprintf]
  split
  · rfl
  · rw [strncat]
    cases c.remove s.tree (userDirPath a.name ++ a.fileName.take a.fileName.length) <;> rfl

theorem listContent1Svc.buffered_fst (u : Bytes) :
    (listContent1Svc.buffered c s u).1 = listContent1Svc c u s := by
  unfold listContent1Svc.buffered listContent1Svc
  dsimp only
  rw [CBuffer.string_sprintf]
  split
  · rfl
  · cases c.opendir s.tree (userDirPath u) <;> rfl

end StorageServer

/-! ## `remove_directory` -/

/-- The array for the path of one entry. -/
def removeDirectory.buf (path dName : Bytes) : PathBuffer :=
  let len := path.length + dName.length + 2
  (CBuffer.malloc len).snprintf len (path ++ slash :: dName)

/-- The array of `remove_directory` holds the path of the entry. -/
theorem removeDirectory.string_buf (path dName : Bytes) :
    (removeDirectory.buf path dName).string = path ++ slash :: dName :=
  CBuffer.string_snprintf (by simp; omega)

/-- One turn of the loop, on the string in the array. -/
theorem removeEntries_buf {c : SysCalls} {recurse : Tree → Bytes → Int × Tree} {path dName : Bytes}
    {rest : List Bytes} {t : Tree} (h : ¬ (dName = dot ∨ dName = dotDot)) :
    removeEntries c recurse path (dName :: rest) t =
      let r := removeEntry c recurse t (removeDirectory.buf path dName).string
      if r.1 = 0 then removeEntries c recurse path rest r.2 else r := by
  rw [removeDirectory.string_buf, removeEntries, if_neg h]

/-! ## All places -/

/-- A place that computes a size, with the strings that come to it. -/
inductive PathPlace
  | registerUser (userName : Line)
  | unregisterUser (userName : Line)
  | publishFile (userName fileName fileDescription : Line)
  | deleteFile (userName fileName : Line)
  | listContent (userName : Line)
  | registerUserRpc1Svc (arg1 : Bytes)
  | unregisterUserRpc1Svc (arg1 : Bytes)
  | publishFileRpc1Svc (arg1 : PublishArguments)
  | deleteFileRpc1Svc (arg1 : DeleteArguments)
  | listContent1Svc (arg2 : Bytes)
  | removeDirectory (path dName : Bytes)

namespace PathPlace

/-- The array of the place, with the string that it holds in the end. -/
def buffer (c : SysCalls) (s : Store) : PathPlace → Option PathBuffer
  | registerUser userName => (Lab.registerUser.buffered c s userName).2
  | unregisterUser userName => (Lab.unregisterUser.buffered c s userName).2
  | publishFile userName fileName fileDescription =>
    (Lab.publishFile.buffered c s userName fileName fileDescription).2
  | deleteFile userName fileName => (Lab.deleteFile.buffered c s userName fileName).2
  | listContent userName => (Lab.listContent.buffered c s userName).2
  | registerUserRpc1Svc arg1 => (Lab.registerUserRpc1Svc.buffered c s arg1).2
  | unregisterUserRpc1Svc arg1 => (Lab.unregisterUserRpc1Svc.buffered c s arg1).2
  | publishFileRpc1Svc arg1 => (Lab.publishFileRpc1Svc.buffered c s arg1).2
  | deleteFileRpc1Svc arg1 => (Lab.deleteFileRpc1Svc.buffered c s arg1).2
  | listContent1Svc arg2 => (Lab.listContent1Svc.buffered c s arg2).2
  | removeDirectory path dName => some (Lab.removeDirectory.buf path dName)

/-- The names of the place are names that `readLine` delivers. -/
def Delivered : PathPlace → Prop
  | registerUser userName => userName.Delivered maxSize
  | unregisterUser userName => userName.Delivered maxSize
  | publishFile userName fileName _ => userName.Delivered maxSize ∧ fileName.Delivered maxSize
  | deleteFile userName fileName => userName.Delivered maxSize ∧ fileName.Delivered maxSize
  | listContent userName => userName.Delivered maxSize
  | _ => True

/-- The place comes to append a file name that is not empty. -/
def Appends (c : SysCalls) (s : Store) : PathPlace → Prop
  | publishFile userName fileName _ =>
    Publishes c s userName.text fileName.text ∧ fileName.text ≠ []
  | deleteFile userName fileName =>
    fileExists c s.tree fileName.text (userDirPath userName.text) = 1 ∧ fileName.text ≠ []
  | publishFileRpc1Svc arg1 =>
    isusrRegistered c s.tree arg1.name ≠ 0 ∧ arg1.name ∈ userNames s.connected ∧
      fileExists c s.tree arg1.fileName (userDirPath arg1.name) = 0 ∧ arg1.fileName ≠ []
  | deleteFileRpc1Svc arg1 =>
    fileExists c s.tree arg1.fileName (userDirPath arg1.name) ≠ 0 ∧ arg1.fileName ≠ []
  | _ => False

end PathPlace

/-! ## Sizes -/

section Sizes

variable {u f : Bytes} {n : Nat}

@[simp] theorem length_userPath (u : Bytes) :
    (userPath u).length = usersDirectory.length + 1 + u.length := by
  simp [userPath]
  omega

@[simp] theorem length_userDirPath (u : Bytes) :
    (userDirPath u).length = usersDirectory.length + 1 + u.length + 1 := by
  simp [userDirPath]

/-- The array of a REGISTER and an UNREGISTER has room for its path. -/
theorem fits_userPath (hn : n = u.length) :
    ((CBuffer.malloc (n + 2 + usersDirectory.length + 1)).sprintf (userPath u)).Fits := by
  rw [CBuffer.fits_sprintf_iff, length_userPath, CBuffer.size_malloc]
  omega

/-- The array of a LIST_CONTENT has room for its path. -/
theorem fits_listPath (hn : n = u.length) :
    ((CBuffer.malloc (n + 2 + usersDirectory.length + 1)).sprintf (userDirPath u)).Fits := by
  rw [CBuffer.fits_sprintf_iff, length_userDirPath, CBuffer.size_malloc]
  omega

/-- The array of a PUBLISH and a DELETE has room for the user's path, up to the slash. -/
theorem fits_userDirPath (hn : n = u.length) :
    ((CBuffer.malloc (usersDirectory.length + 1 + n + 2)).sprintf (userDirPath u)).Fits := by
  rw [CBuffer.fits_sprintf_iff, length_userDirPath, CBuffer.size_malloc]
  omega

/-- The size leaves no room for a file name. -/
theorem fits_filePath_iff {k : Nat} (hn : n = u.length) (hk : k = f.length) :
    (((CBuffer.malloc (usersDirectory.length + 1 + n + 2)).sprintf (userDirPath u)).strncat
      f k).Fits ↔ f = [] := by
  have hsize : ((CBuffer.malloc (usersDirectory.length + 1 + n + 2) : PathBuffer)).size =
      usersDirectory.length + 1 + n + 2 := rfl
  rw [CBuffer.fits_strncat_iff, length_userDirPath, hsize, ← List.length_eq_zero_iff]
  omega

end Sizes

namespace PathPlace

/-- The array of the place, where there is one, holds its string. -/
def Fits (c : SysCalls) (s : Store) (place : PathPlace) : Prop :=
  ∀ b ∈ place.buffer c s, b.Fits

variable {c : SysCalls} {s : Store}

/-- A REGISTER stays in its array. -/
theorem fits_registerUser {u : Line} (hu : u.length = u.text.length) :
    (registerUser u).Fits c s := by
  intro b hb
  unfold buffer Lab.registerUser.buffered at hb
  dsimp only at hb
  split at hb
  · obtain rfl : _ = b := by
      split at hb <;> exact Option.some.inj hb
    exact fits_userPath hu
  · obtain rfl : _ = b := by
      split at hb <;> exact Option.some.inj hb
    exact CBuffer.fits_malloc

/-- An UNREGISTER stays in its array. -/
theorem fits_unregisterUser {u : Line} (hu : u.length = u.text.length) :
    (unregisterUser u).Fits c s := by
  intro b hb
  unfold buffer Lab.unregisterUser.buffered at hb
  dsimp only at hb
  split at hb
  · obtain rfl : _ = b := by
      split at hb <;> exact Option.some.inj hb
    exact fits_userPath hu
  · obtain rfl : _ = b := by
      split at hb <;> exact Option.some.inj hb
    exact CBuffer.fits_malloc

/-- A LIST_CONTENT stays in its array. -/
theorem fits_listContent {u : Line} (hu : u.length = u.text.length) :
    (listContent u).Fits c s := by
  intro b hb
  unfold buffer Lab.listContent.buffered at hb
  dsimp only at hb
  obtain rfl : _ = b := by
    split at hb
    · split at hb <;> exact Option.some.inj hb
    · exact Option.some.inj hb
  exact fits_listPath hu

theorem fits_registerUserRpc1Svc (u : Bytes) : (registerUserRpc1Svc u).Fits c s := by
  intro b hb
  unfold buffer Lab.registerUserRpc1Svc.buffered at hb
  dsimp only at hb
  split at hb
  · cases hb
  · obtain rfl : _ = b := by
      split at hb <;> exact Option.some.inj hb
    exact fits_userPath rfl

theorem fits_unregisterUserRpc1Svc (u : Bytes) : (unregisterUserRpc1Svc u).Fits c s := by
  intro b hb
  unfold buffer Lab.unregisterUserRpc1Svc.buffered at hb
  dsimp only at hb
  split at hb
  · cases hb
  · obtain rfl : _ = b := by
      split at hb <;> exact Option.some.inj hb
    exact fits_userPath rfl

theorem fits_listContent1Svc (u : Bytes) : (listContent1Svc u).Fits c s := by
  intro b hb
  unfold buffer Lab.listContent1Svc.buffered at hb
  dsimp only at hb
  split at hb
  · cases hb
  · obtain rfl : _ = b := by
      split at hb <;> exact Option.some.inj hb
    exact fits_listPath rfl

/-- `remove_directory` stays in its array. -/
theorem fits_removeDirectory (path dName : Bytes) : (removeDirectory path dName).Fits c s := by
  intro b hb
  obtain rfl := Option.some.inj hb
  exact CBuffer.fits_snprintf (by omega) (Nat.le_refl _)

/-- A place that holds the path of a file fits it exactly when nothing was appended. -/
theorem fits_of_filePath {place : PathPlace} {u f : Bytes} {n k : Nat} (hn : n = u.length)
    (hk : k = f.length)
    (hb : place.buffer c s = some (((CBuffer.malloc (usersDirectory.length + 1 + n + 2)).sprintf
      (userDirPath u)).strncat f k)) : place.Fits c s ↔ f = [] := by
  rw [← fits_filePath_iff hn hk]
  unfold Fits
  rw [hb]
  constructor
  · intro h
    exact h _ rfl
  · intro h b hb'
    exact Option.some.inj hb' ▸ h

/-- A PUBLISH stays in its array exactly when it appends no file name. -/
theorem fits_publishFile_iff {u f d : Line} (hu : u.length = u.text.length)
    (hf : f.length = f.text.length) :
    (publishFile u f d).Fits c s ↔ ¬ (publishFile u f d).Appends c s := by
  by_cases hp : Publishes c s u.text f.text
  · have hb : (publishFile u f d).buffer c s =
        some (((CBuffer.malloc (usersDirectory.length + 1 + u.length + 2)).sprintf
          (userDirPath u.text)).strncat f.text f.length) := by
      have hcon := findElementByname_ne_zero_iff.2 hp.connected
      unfold buffer Lab.publishFile.buffered
      dsimp only
      rw [CBuffer.string_sprintf, if_pos hp.registered, if_pos hcon, if_pos hp.absent]
      split
      · rfl
      · split <;> rfl
    rw [fits_of_filePath hu hf hb]
    simp [Appends, hp]
  · refine iff_of_true ?_ fun h => hp h.1
    intro b hb
    unfold buffer Lab.publishFile.buffered at hb
    dsimp only at hb
    rw [CBuffer.string_sprintf] at hb
    split at hb
    · rename_i hreg
      split at hb
      · rename_i hcon
        have habs : fileExists c s.tree f.text (userDirPath u.text) ≠ 0 := by
          intro h0
          exact hp ⟨hreg, findElementByname_ne_zero_iff.1 hcon, h0⟩
        rw [if_neg habs] at hb
        obtain rfl : _ = b := by
          split at hb <;> exact Option.some.inj hb
        exact fits_userDirPath hu
      · cases hb
    · cases hb

/-- A DELETE stays in its array exactly when it appends no file name. -/
theorem fits_deleteFile_iff {u f : Line} (hu : u.length = u.text.length)
    (hf : f.length = f.text.length) :
    (deleteFile u f).Fits c s ↔ ¬ (deleteFile u f).Appends c s := by
  by_cases h1 : fileExists c s.tree f.text (userDirPath u.text) = 1
  · have hb : (deleteFile u f).buffer c s =
        some (((CBuffer.malloc (usersDirectory.length + 1 + u.length + 2)).sprintf
          (userDirPath u.text)).strncat f.text f.length) := by
      unfold buffer Lab.deleteFile.buffered
      dsimp only
      rw [CBuffer.string_sprintf, if_pos h1]
      split <;> rfl
    rw [fits_of_filePath hu hf hb]
    simp [Appends, h1]
  · refine iff_of_true ?_ fun h => h1 h.1
    intro b hb
    unfold buffer Lab.deleteFile.buffered at hb
    dsimp only at hb
    rw [CBuffer.string_sprintf, if_neg h1] at hb
    obtain rfl : _ = b := by
      split at hb <;> exact Option.some.inj hb
    exact fits_userDirPath hu

/-- The daemon's PUBLISH stays in its array exactly when it appends no file name. -/
theorem fits_publishFileRpc1Svc_iff (a : PublishArguments) :
    (publishFileRpc1Svc a).Fits c s ↔ ¬ (publishFileRpc1Svc a).Appends c s := by
  by_cases hreg : isusrRegistered c s.tree a.name = 0
  · refine iff_of_true ?_ fun h => h.1 hreg
    intro b hb
    unfold buffer Lab.publishFileRpc1Svc.buffered at hb
    dsimp only at hb
    rw [if_pos hreg] at hb
    cases hb
  by_cases hcon : findElementByname s.connected a.name = 0
  · refine iff_of_true ?_ fun h => findElementByname_eq_zero_iff.1 hcon h.2.1
    intro b hb
    unfold buffer Lab.publishFileRpc1Svc.buffered at hb
    dsimp only at hb
    rw [if_neg hreg, if_pos hcon] at hb
    cases hb
  by_cases h0 : fileExists c s.tree a.fileName (userDirPath a.name) = 0
  · have hb : (publishFileRpc1Svc a).buffer c s =
        some (((CBuffer.malloc (usersDirectory.length + 1 + a.name.length + 2)).sprintf
          (userDirPath a.name)).strncat a.fileName a.fileName.length) := by
      unfold buffer Lab.publishFileRpc1Svc.buffered
      dsimp only
      rw [CBuffer.string_sprintf, if_neg hreg, if_neg hcon, if_neg (not_not.2 h0)]
      split
      · rfl
      · split <;> rfl
    rw [fits_of_filePath rfl rfl hb]
    simp [Appends, hreg, findElementByname_ne_zero_iff.1 hcon, h0]
  · refine iff_of_true ?_ fun h => h0 h.2.2.1
    intro b hb
    unfold buffer Lab.publishFileRpc1Svc.buffered at hb
    dsimp only at hb
    rw [CBuffer.string_sprintf, if_neg hreg, if_neg hcon, if_pos h0] at hb
    obtain rfl := Option.some.inj hb
    exact fits_userDirPath rfl

/-- The daemon's DELETE stays in its array exactly when it appends no file name. -/
theorem fits_deleteFileRpc1Svc_iff (a : DeleteArguments) :
    (deleteFileRpc1Svc a).Fits c s ↔ ¬ (deleteFileRpc1Svc a).Appends c s := by
  by_cases h0 : fileExists c s.tree a.fileName (userDirPath a.name) = 0
  · refine iff_of_true ?_ fun h => h.1 h0
    intro b hb
    unfold buffer Lab.deleteFileRpc1Svc.buffered at hb
    dsimp only at hb
    rw [CBuffer.string_sprintf, if_pos h0] at hb
    obtain rfl := Option.some.inj hb
    exact fits_userDirPath rfl
  · have hb : (deleteFileRpc1Svc a).buffer c s =
        some (((CBuffer.malloc (usersDirectory.length + 1 + a.name.length + 2)).sprintf
          (userDirPath a.name)).strncat a.fileName a.fileName.length) := by
      unfold buffer Lab.deleteFileRpc1Svc.buffered
      dsimp only
      rw [CBuffer.string_sprintf, if_neg h0]
      split <;> rfl
    rw [fits_of_filePath rfl rfl hb]
    simp [Appends, h0]

end PathPlace

/-- **Path strings fit their arrays** at every place, for any system calls and any store, exactly
when the place does not come to append a file name. -/
theorem path_fits_iff {c : SysCalls} {s : Store} {place : PathPlace} (h : place.Delivered) :
    place.Fits c s ↔ ¬ place.Appends c s := by
  cases place with
  | registerUser u => exact iff_of_true (PathPlace.fits_registerUser h.length_eq) not_false
  | unregisterUser u => exact iff_of_true (PathPlace.fits_unregisterUser h.length_eq) not_false
  | publishFile u f d => exact PathPlace.fits_publishFile_iff h.1.length_eq h.2.length_eq
  | deleteFile u f => exact PathPlace.fits_deleteFile_iff h.1.length_eq h.2.length_eq
  | listContent u => exact iff_of_true (PathPlace.fits_listContent h.length_eq) not_false
  | registerUserRpc1Svc u => exact iff_of_true (PathPlace.fits_registerUserRpc1Svc u) not_false
  | unregisterUserRpc1Svc u =>
    exact iff_of_true (PathPlace.fits_unregisterUserRpc1Svc u) not_false
  | publishFileRpc1Svc a => exact PathPlace.fits_publishFileRpc1Svc_iff a
  | deleteFileRpc1Svc a => exact PathPlace.fits_deleteFileRpc1Svc_iff a
  | listContent1Svc u => exact iff_of_true (PathPlace.fits_listContent1Svc u) not_false
  | removeDirectory path dName =>
    exact iff_of_true (PathPlace.fits_removeDirectory path dName) not_false

/-- PUBLISH of `notes` by the connected `alice`. -/
def publishNotes : PathPlace :=
  .publishFile (Line.of (cstring "alice")) (Line.of (cstring "notes")) (Line.of (cstring "text"))

theorem publishNotes_fits_iff : publishNotes.Fits (posix []) aliceStore ↔
    ¬ publishNotes.Appends (posix []) aliceStore :=
  path_fits_iff (show publishNotes.Delivered from ⟨by decide, by decide⟩)

/-- The path of `notes` needs 20 bytes of an array of 15. -/
theorem publishNotes_overruns :
    ¬ ∀ (c : SysCalls) (s : Store) (place : PathPlace), place.Delivered → place.Fits c s := by
  intro h
  have hfits := h (posix []) aliceStore publishNotes ⟨by decide, by decide⟩
  have hlen := hfits ⟨15, some (cstring "./Users/alice/notes")⟩ (by decide) _ rfl
  exact absurd hlen (by decide)

end DistributedSystems.Lab
