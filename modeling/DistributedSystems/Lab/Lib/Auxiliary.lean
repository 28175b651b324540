import DistributedSystems.Fs.Calls

/-!
# Directories of users (`lib/auxiliary.c`)

The two lookups compare a name with the names that `readdir` yields, the dot names among them; they
never resolve it as a path. `removeDirectory` recurses over paths, and its fuel bounds the depth of
the recursion: more levels than the tree has entries are never reached.
-/

namespace DistributedSystems.Lab

open Fs

def usersDirectory : Bytes := cstring "./Users"

/-- The loop over `readdir` that looks for a name. -/
def scan : List Bytes → Bytes → Int
  | [], _ => 0
  | dName :: rest, name => if dName = name then 1 else scan rest name

/-- 1 when the directory has an entry of that name, 0 when it has none and -1 when it cannot be
opened. -/
def searchDirectory (c : SysCalls) (t : Tree) (dirPath name : Bytes) : Int :=
  match c.opendir t dirPath with
  | none => -1
  | some entries => scan entries name

def isusrRegistered (c : SysCalls) (t : Tree) (userName : Bytes) : Int :=
  searchDirectory c t usersDirectory userName

def fileExists (c : SysCalls) (t : Tree) (fileName directoryPath : Bytes) : Int :=
  searchDirectory c t directoryPath fileName

/-- One turn of the loop of `remove_directory`: the entry with path `buf`. -/
def removeEntry (c : SysCalls) (recurse : Tree → Bytes → Int × Tree) (t : Tree) (buf : Bytes) :
    Int × Tree :=
  if c.malloc t buf then
    match c.stat t buf with
    | none => (-1, t)
    | some .dir => recurse t buf
    | some (.file _) =>
      match c.unlink t buf with
      | none => (-1, t)
      | some t' => (0, t')
  else (-1, t)

/-- The loop of `remove_directory`, which stops at the first entry it cannot remove. -/
def removeEntries (c : SysCalls) (recurse : Tree → Bytes → Int × Tree) (path : Bytes) :
    List Bytes → Tree → Int × Tree
  | [], t => (0, t)
  | dName :: rest, t =>
    if dName = dot ∨ dName = dotDot then removeEntries c recurse path rest t
    else
      let r := removeEntry c recurse t (path ++ slash :: dName)
      if r.1 = 0 then removeEntries c recurse path rest r.2 else r

def removeDirectoryAux (c : SysCalls) : Nat → Tree → Bytes → Int × Tree
  | 0, t, _ => (-1, t)
  | fuel + 1, t, path =>
    match c.opendir t path with
    | none => (-1, t)
    | some entries =>
      let r := removeEntries c (removeDirectoryAux c fuel) path entries t
      if r.1 = 0 then
        match c.rmdir r.2 path with
        | none => (-1, r.2)
        | some t' => (0, t')
      else r

/-- `remove_directory(path)`: its result and the tree it leaves. -/
def removeDirectory (c : SysCalls) (t : Tree) (path : Bytes) : Int × Tree :=
  removeDirectoryAux c (t.entries.length + 1) t path

/-! ## The lookups -/

theorem scan_eq (entries : List Bytes) (name : Bytes) :
    scan entries name = if name ∈ entries then 1 else 0 := by
  induction entries with
  | nil => rfl
  | cons d entries ih =>
    by_cases h : d = name
    · simp [scan, h]
    · simp [scan, h, ih, Ne.symm h]

variable {c : SysCalls} {t : Tree} {dirPath name : Bytes}

theorem searchDirectory_of_opendir {entries : List Bytes}
    (h : c.opendir t dirPath = some entries) :
    searchDirectory c t dirPath name = if name ∈ entries then 1 else 0 := by
  simp only [searchDirectory, h, scan_eq]

theorem searchDirectory_of_none (h : c.opendir t dirPath = none) :
    searchDirectory c t dirPath name = -1 := by
  simp only [searchDirectory, h]

theorem searchDirectory_eq_one_iff :
    searchDirectory c t dirPath name = 1 ↔
      ∃ entries, c.opendir t dirPath = some entries ∧ name ∈ entries := by
  cases h : c.opendir t dirPath with
  | none => simp [searchDirectory_of_none h]
  | some entries => simp [searchDirectory_of_opendir h]

theorem searchDirectory_eq_zero_iff :
    searchDirectory c t dirPath name = 0 ↔
      ∃ entries, c.opendir t dirPath = some entries ∧ name ∉ entries := by
  cases h : c.opendir t dirPath with
  | none => simp [searchDirectory_of_none h]
  | some entries => simp [searchDirectory_of_opendir h]

/-- The result is one of the three. -/
theorem searchDirectory_cases (c : SysCalls) (t : Tree) (dirPath name : Bytes) :
    searchDirectory c t dirPath name = -1 ∨ searchDirectory c t dirPath name = 0 ∨
      searchDirectory c t dirPath name = 1 := by
  cases h : c.opendir t dirPath with
  | none => exact Or.inl (searchDirectory_of_none h)
  | some entries =>
    rw [searchDirectory_of_opendir h]
    split <;> simp

end DistributedSystems.Lab
