import DistributedSystems.Fs.Path

/-!
# System calls

`SysCalls` is the file-system interface that a program sees: every call is one function of the tree
and of its arguments. `posix` is the interface of a system that refuses nothing it need not refuse,
and `c ≤ d` says that `c` answers as `d` does whenever it does not fail, so that `c ≤ posix cwd` is
a POSIX system on which any call may fail.
-/

namespace DistributedSystems.Fs

/-- The calls that a program makes on the file tree. `none` is the -1 or the NULL of a failed call,
which leaves the tree as it was. -/
structure SysCalls where
  /-- The names that `readdir` yields on the opened directory. -/
  opendir : Tree → Bytes → Option (List Bytes)
  stat : Tree → Bytes → Option Entry
  mkdir : Tree → Bytes → Option Tree
  /-- `open` with `O_CREAT | O_RDWR`. The descriptor is the position of the opened file. -/
  openCreate : Tree → Bytes → Option (Tree × Pos)
  /-- `write` at offset 0 of a file just opened. -/
  write : Tree → Pos → Bytes → Option Tree
  unlink : Tree → Bytes → Option Tree
  rmdir : Tree → Bytes → Option Tree
  /-- The C library's `remove`. -/
  remove : Tree → Bytes → Option Tree
  /-- Whether the buffer for a path can be allocated. -/
  malloc : Tree → Bytes → Bool

namespace SysCalls

/-- `c ≤ d`: a call of `c` fails or answers as `d` does. -/
instance : LE SysCalls where
  le c d :=
    (∀ t path r, c.opendir t path = some r → d.opendir t path = some r) ∧
    (∀ t path r, c.stat t path = some r → d.stat t path = some r) ∧
    (∀ t path r, c.mkdir t path = some r → d.mkdir t path = some r) ∧
    (∀ t path r, c.openCreate t path = some r → d.openCreate t path = some r) ∧
    (∀ t p data r, c.write t p data = some r → d.write t p data = some r) ∧
    (∀ t path r, c.unlink t path = some r → d.unlink t path = some r) ∧
    (∀ t path r, c.rmdir t path = some r → d.rmdir t path = some r) ∧
    (∀ t path r, c.remove t path = some r → d.remove t path = some r) ∧
    (∀ t path, c.malloc t path = true → d.malloc t path = true)

theorem le_refl (c : SysCalls) : c ≤ c := by
  refine ⟨?_, ?_, ?_, ?_, ?_, ?_, ?_, ?_, ?_⟩ <;> intros <;> assumption

section Le

variable {c d : SysCalls} (h : c ≤ d) {t : Tree} {path : Bytes}

include h

theorem opendir_of_le {r : List Bytes} (hc : c.opendir t path = some r) :
    d.opendir t path = some r := h.1 t path r hc

theorem stat_of_le {r : Entry} (hc : c.stat t path = some r) : d.stat t path = some r :=
  h.2.1 t path r hc

theorem mkdir_of_le {r : Tree} (hc : c.mkdir t path = some r) : d.mkdir t path = some r :=
  h.2.2.1 t path r hc

theorem openCreate_of_le {r : Tree × Pos} (hc : c.openCreate t path = some r) :
    d.openCreate t path = some r := h.2.2.2.1 t path r hc

theorem write_of_le {p : Pos} {data : Bytes} {r : Tree} (hc : c.write t p data = some r) :
    d.write t p data = some r := h.2.2.2.2.1 t p data r hc

theorem unlink_of_le {r : Tree} (hc : c.unlink t path = some r) : d.unlink t path = some r :=
  h.2.2.2.2.2.1 t path r hc

theorem rmdir_of_le {r : Tree} (hc : c.rmdir t path = some r) : d.rmdir t path = some r :=
  h.2.2.2.2.2.2.1 t path r hc

theorem remove_of_le {r : Tree} (hc : c.remove t path = some r) : d.remove t path = some r :=
  h.2.2.2.2.2.2.2.1 t path r hc

end Le

end SysCalls

/-! ## POSIX -/

/-- What `readdir` yields on the directory at `p`. -/
def listing (t : Tree) (p : Pos) : List Bytes := dot :: dotDot :: t.names p

/-- `unlink` on a POSIX system: regular files only. -/
def posixUnlink (cwd : Pos) (t : Tree) (path : Bytes) : Option Tree :=
  (leaf t (origin cwd path) (components path)).bind fun x =>
    match t.get (x.1 ++ [x.2]) with
    | some (.file _) => t.erase (x.1 ++ [x.2])
    | _ => none

/-- `rmdir` on a POSIX system: empty directories only, and not through a dot name. -/
def posixRmdir (cwd : Pos) (t : Tree) (path : Bytes) : Option Tree :=
  (leaf t (origin cwd path) (stripTrailing (components path))).bind fun x =>
    if t.get (x.1 ++ [x.2]) = some .dir then t.erase (x.1 ++ [x.2]) else none

/-- The calls of a POSIX system whose working directory is `cwd`, on trees whose files may all be
read, written and removed. -/
def posix (cwd : Pos) : SysCalls where
  opendir t path := (resolve cwd t path).bind fun p =>
    if t.get p = some .dir then some (listing t p) else none
  stat t path := (resolve cwd t path).bind t.get
  mkdir t path := (leaf t (origin cwd path) (stripTrailing (components path))).bind fun x =>
    t.create x.1 x.2 .dir
  openCreate t path := (leaf t (origin cwd path) (components path)).bind fun x =>
    match t.get (x.1 ++ [x.2]) with
    | some .dir => none
    | some (.file _) => some (t, x.1 ++ [x.2])
    | none => (t.create x.1 x.2 (.file [])).map (·, x.1 ++ [x.2])
  write t p data := some (t.write p data)
  unlink := posixUnlink cwd
  rmdir := posixRmdir cwd
  -- `unlink` refuses a directory, then `rmdir` is tried
  remove t path := (posixUnlink cwd t path).or (posixRmdir cwd t path)
  malloc _ _ := true

namespace posix

variable {cwd : Pos} {t t' : Tree} {path : Bytes}

theorem opendir_eq_some_iff {ns : List Bytes} :
    (posix cwd).opendir t path = some ns ↔
      ∃ p, resolve cwd t path = some p ∧ t.get p = some .dir ∧ listing t p = ns := by
  simp only [posix, Option.bind_eq_some_iff]
  constructor
  · rintro ⟨p, hp, h⟩
    split at h
    · exact ⟨p, hp, ‹_›, Option.some.inj h⟩
    · cases h
  · rintro ⟨p, hp, hd, rfl⟩
    exact ⟨p, hp, if_pos hd⟩

theorem stat_eq_some_iff {e : Entry} :
    (posix cwd).stat t path = some e ↔ ∃ p, resolve cwd t path = some p ∧ t.get p = some e := by
  simp only [posix, Option.bind_eq_some_iff]

theorem mkdir_eq_some_iff :
    (posix cwd).mkdir t path = some t' ↔
      ∃ p n, leaf t (origin cwd path) (stripTrailing (components path)) = some (p, n) ∧
        t.create p n .dir = some t' := by
  simp only [posix, Option.bind_eq_some_iff, Prod.exists]

theorem openCreate_eq_some_iff {fd : Pos} :
    (posix cwd).openCreate t path = some (t', fd) ↔
      ∃ p n, leaf t (origin cwd path) (components path) = some (p, n) ∧ fd = p ++ [n] ∧
        ((∃ old, t.get fd = some (.file old) ∧ t' = t) ∨ t.create p n (.file []) = some t') := by
  simp only [posix, Option.bind_eq_some_iff, Prod.exists]
  constructor
  · rintro ⟨p, n, hl, h⟩
    split at h
    · cases h
    · rename_i old hold
      obtain ⟨rfl, rfl⟩ := Prod.mk.inj (Option.some.inj h)
      exact ⟨p, n, hl, rfl, Or.inl ⟨old, hold, rfl⟩⟩
    · obtain ⟨u, hu, he⟩ := Option.map_eq_some_iff.1 h
      obtain ⟨rfl, rfl⟩ := Prod.mk.inj he
      exact ⟨p, n, hl, rfl, Or.inr hu⟩
  · rintro ⟨p, n, hl, rfl, h⟩
    refine ⟨p, n, hl, ?_⟩
    rcases h with ⟨old, hold, rfl⟩ | h
    · simp only [hold]
    · have hnew := (Tree.create_isSome_iff.1 (Option.isSome_of_eq_some h)).2.1
      simp only [hnew, h, Option.map_some]

theorem unlink_eq_some_iff :
    (posix cwd).unlink t path = some t' ↔
      ∃ p n old, leaf t (origin cwd path) (components path) = some (p, n) ∧
        t.get (p ++ [n]) = some (.file old) ∧ t.erase (p ++ [n]) = some t' := by
  simp only [posix, posixUnlink, Option.bind_eq_some_iff, Prod.exists]
  constructor
  · rintro ⟨p, n, hl, h⟩
    split at h
    · rename_i old hold
      exact ⟨p, n, old, hl, hold, h⟩
    · cases h
  · rintro ⟨p, n, old, hl, hold, he⟩
    exact ⟨p, n, hl, by simp only [hold]; exact he⟩

theorem rmdir_eq_some_iff :
    (posix cwd).rmdir t path = some t' ↔
      ∃ p n, leaf t (origin cwd path) (stripTrailing (components path)) = some (p, n) ∧
        t.get (p ++ [n]) = some .dir ∧ t.erase (p ++ [n]) = some t' := by
  simp only [posix, posixRmdir, Option.bind_eq_some_iff, Prod.exists]
  constructor
  · rintro ⟨p, n, hl, h⟩
    split at h
    · exact ⟨p, n, hl, ‹_›, h⟩
    · cases h
  · rintro ⟨p, n, hl, hd, he⟩
    exact ⟨p, n, hl, by rw [if_pos hd]; exact he⟩

/-- `remove` takes away the entry that its path leads to. -/
theorem remove_erases (h : (posix cwd).remove t path = some t') :
    ∃ p n e, leaf t (origin cwd path) (stripTrailing (components path)) = some (p, n) ∧
      walk t (origin cwd path) (components path) = some (p ++ [n]) ∧
      t.get (p ++ [n]) = some e ∧ t.erase (p ++ [n]) = some t' := by
  have hor : ((posix cwd).unlink t path).or ((posix cwd).rmdir t path) = some t' := h
  rcases Option.or_eq_some_iff.1 hor with h | ⟨-, h⟩
  · obtain ⟨p, n, old, hl, hf, he⟩ := unlink_eq_some_iff.1 h
    have hn := Tree.validName_of_get hf
    refine ⟨p, n, _, ?_, walk_of_leaf hn hl (Option.isSome_of_eq_some hf), hf, he⟩
    obtain ⟨ds, hds, -⟩ := leaf_eq_some_iff.1 hl
    rw [hds, stripTrailing_snoc hn.1, ← hds]
    exact hl
  · obtain ⟨p, n, hl, hd, he⟩ := rmdir_eq_some_iff.1 h
    have hw := walk_of_leaf (Tree.validName_of_get hd) hl (Option.isSome_of_eq_some hd)
    exact ⟨p, n, _, hl, walk_of_stripTrailing hw hd, hd, he⟩

end posix

/-! ## What the calls keep -/

section Keep

variable {cwd : Pos} {c : SysCalls} (hc : c ≤ posix cwd) {t t' : Tree} {path : Bytes} {q : Pos}

include hc

/-- A `mkdir` changes no entry that was there. -/
theorem get_of_mkdir (h : c.mkdir t path = some t') {e : Entry} (hq : t.get q = some e) :
    t'.get q = some e := by
  obtain ⟨p, n, -, hcr⟩ := posix.mkdir_eq_some_iff.1 (SysCalls.mkdir_of_le hc h)
  exact Tree.get_of_create hcr hq

/-- An `open` changes no entry that was there. -/
theorem get_of_openCreate {fd : Pos} (h : c.openCreate t path = some (t', fd)) {e : Entry}
    (hq : t.get q = some e) : t'.get q = some e := by
  obtain ⟨p, n, -, -, ⟨-, -, rfl⟩ | hcr⟩ :=
    posix.openCreate_eq_some_iff.1 (SysCalls.openCreate_of_le hc h)
  · exact hq
  · exact Tree.get_of_create hcr hq

/-- A `write` changes no directory. -/
theorem get_of_write {p : Pos} {data : Bytes} (h : c.write t p data = some t')
    (hq : t.get q = some .dir) : t'.get q = some .dir := by
  obtain rfl : t.write p data = t' := Option.some.inj (SysCalls.write_of_le hc h)
  rw [Tree.get_write, hq]
  simp [Entry.overwritten]

/-- A `remove` takes away the entry that its path leads to, which must not be a directory with
something in it, and nothing else. -/
theorem get_of_remove (h : c.remove t path = some t')
    (hkept : ∀ p, walk t (origin cwd path) (components path) = some p → t.names p = [] → p ≠ q) :
    t'.get q = t.get q := by
  obtain ⟨p, n, e, -, hw, -, her⟩ := posix.remove_erases (SysCalls.remove_of_le hc h)
  have hempty := Tree.erase_isSome_iff.1 (Option.isSome_of_eq_some her)
  rw [Tree.get_erase (by simp) her, if_neg (Ne.symm (hkept _ hw hempty))]

end Keep

end DistributedSystems.Fs
