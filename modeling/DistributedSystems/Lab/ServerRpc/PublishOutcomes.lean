import DistributedSystems.Lab.ServerC.Server
import DistributedSystems.Lab.ServerRpc.StorageServer

/-!
# PUBLISH when its open or its write goes wrong

Both implementations create the file with `open` and fill it with one `write`, whose result they
compare with -1 only. A publication is all or nothing exactly when this is not the way it goes: the
file is new, it is opened, and the write fails or takes fewer bytes than it was given
(`publish_allOrNothing_iff`).
-/

namespace DistributedSystems.Lab

open Fs

/-- How the two calls of a publication turn out. -/
structure WriteOutcome where
  /-- Whether `open` may succeed. -/
  opens : Bool
  /-- How many bytes the write takes at most. `none` is its -1. -/
  accepted : Option Nat

/-- A POSIX system on which `open` and `write` turn out so. -/
def WriteOutcome.calls (o : WriteOutcome) (cwd : Pos) : SysCalls :=
  { posix cwd with
    openCreate := fun t path => if o.opens then (posix cwd).openCreate t path else none
    write := fun t p data => o.accepted.map fun n => t.write p (data.take n) }

/-- A write that takes all of `data`. -/
def WriteOutcome.Whole (o : WriteOutcome) (data : Bytes) : Prop :=
  ∃ n, o.accepted = some n ∧ data.length ≤ n

/-- The result of a publication: the file with the whole description, or the tree as it was. -/
structure AllOrNothing (cwd : Pos) (u f d : Bytes) (s : Store) (r : Int × Store) : Prop where
  all : r.1 = success → r.2.tree.get (usersPos cwd ++ [u, f]) = some (.file d)
  nothing : r.1 ≠ success → r.2.tree = s.tree

/-- A request with plain names from a user who is registered and connected. -/
structure Admitted (cwd : Pos) (u f : Bytes) (s : Store) : Prop where
  user : ValidName u
  file : ValidName f
  registered : isusrRegistered (posix cwd) s.tree u = 1
  connected : u ∈ userNames s.connected

/-- The file is created and not all of the description gets into it. -/
structure CutShort (cwd : Pos) (u f d : Bytes) (s : Store) (o : WriteOutcome) : Prop where
  absent : fileExists (posix cwd) s.tree f (userDirPath u) = 0
  opens : o.opens = true
  short : ¬ o.Whole d

variable {cwd : Pos} {u f d : Bytes} {s : Store} {o : WriteOutcome}

/-! ## The two calls -/

/-- `open` and then `write`, as both implementations make them. -/
def openWrite (c : SysCalls) (path data : Bytes) (s : Store) : Int × Store :=
  match c.openCreate s.tree path with
  | none => (otherError4, s)
  | some (t, fd) =>
    match c.write t fd data with
    | none => (otherError4, { s with tree := t })
    | some t' => (success, { s with tree := t' })

/-- A file that `file_exists` did not find is created in the user's directory. -/
theorem openCreate_of_absent {t : Tree} (hu : ValidName u) (hf : ValidName f)
    (h0 : fileExists (posix cwd) t f (userDirPath u) = 0) :
    ∃ t', (posix cwd).openCreate t (userDirPath u ++ f) = some (t', usersPos cwd ++ [u, f]) ∧
      t.create (usersPos cwd ++ [u]) f (.file []) = some t' := by
  obtain ⟨p, hp, hmem⟩ := fileExists_eq_zero_iff.1 h0
  obtain rfl := resolve_userDirPath_eq_some hu hp
  have hnone : t.get (usersPos cwd ++ [u] ++ [f]) = none := by
    rw [← Option.not_isSome_iff_eq_none]
    exact fun hsome => hmem (mem_listing_iff.2 (Or.inr (Or.inr hsome)))
  obtain ⟨t', hcr⟩ := Option.isSome_iff_exists.1
    (Tree.create_isSome_iff (e := .file []).2 ⟨(resolve_userDirPath.1 hp).2, hnone, hf⟩)
  have hleaf : leaf t cwd (components (userDirPath u ++ f)) = some (usersPos cwd ++ [u], f) := by
    have htake : f.take f.length = f := List.take_length
    have := leaf_filePath (u := u) (f := f) (n := f.length) (by rw [htake]; exact hf.2.1) hp
    rwa [strncat, htake] at this
  refine ⟨t', posix.openCreate_eq_some_iff.2 ⟨_, f, hleaf, ?_, Or.inr hcr⟩, hcr⟩
  rw [List.append_assoc]
  rfl

/-- The file after a creation and a write of some bytes. -/
theorem get_create_write {t t' : Tree} {data : Bytes}
    (hcr : t.create (usersPos cwd ++ [u]) f (.file []) = some t') :
    (t'.write (usersPos cwd ++ [u, f]) data).get (usersPos cwd ++ [u, f]) = some (.file data) := by
  have hpos : usersPos cwd ++ [u, f] = usersPos cwd ++ [u] ++ [f] := by
    rw [List.append_assoc]
    rfl
  rw [Tree.get_write, if_pos rfl, hpos, Tree.get_create hcr, if_pos rfl]
  simp [Entry.overwritten, overwrite]

/-- For a new file, the two calls are all or nothing unless the second falls short after the
first. -/
theorem allOrNothing_openWrite_iff (hu : ValidName u) (hf : ValidName f)
    (h0 : fileExists (posix cwd) s.tree f (userDirPath u) = 0) :
    AllOrNothing cwd u f d s (openWrite (o.calls cwd) (userDirPath u ++ f) d s) ↔
      ¬ (o.opens = true ∧ ¬ o.Whole d) := by
  obtain ⟨t, ho, hcr⟩ := openCreate_of_absent hu hf h0
  have hne := Tree.create_ne hcr
  obtain ⟨opens, accepted⟩ := o
  cases opens with
  | false =>
    have hact : openWrite (WriteOutcome.calls ⟨false, accepted⟩ cwd) (userDirPath u ++ f) d s =
        (otherError4, s) := rfl
    rw [hact]
    exact iff_of_true ⟨fun h => absurd h (by simp), fun _ => rfl⟩ (by simp)
  | true =>
    cases accepted with
    | none =>
      have hact : openWrite (WriteOutcome.calls ⟨true, none⟩ cwd) (userDirPath u ++ f) d s =
          (otherError4, { s with tree := t }) := by
        simp [openWrite, WriteOutcome.calls, ho]
      rw [hact]
      refine iff_of_false (fun h => hne (h.nothing (by simp))) (not_not.2 ⟨rfl, ?_⟩)
      rintro ⟨n, hn, -⟩
      cases hn
    | some n =>
      have hact : openWrite (WriteOutcome.calls ⟨true, some n⟩ cwd) (userDirPath u ++ f) d s =
          (success, { s with tree := t.write (usersPos cwd ++ [u, f]) (d.take n) }) := by
        simp [openWrite, WriteOutcome.calls, ho]
      have hwhole : WriteOutcome.Whole ⟨true, some n⟩ d ↔ d.take n = d := by
        rw [List.take_eq_self_iff]
        exact ⟨fun ⟨m, hm, hle⟩ => Option.some.inj hm ▸ hle, fun hle => ⟨n, rfl, hle⟩⟩
      rw [hact]
      constructor
      · intro h hshort
        have hfile := h.all rfl
        rw [get_create_write hcr] at hfile
        simp only [Option.some.injEq, Entry.file.injEq] at hfile
        exact hshort.2 (hwhole.2 hfile)
      · intro h
        have hall : d.take n = d := by
          rw [← hwhole]
          by_contra hshort
          exact h ⟨rfl, hshort⟩
        refine ⟨fun _ => ?_, fun h => absurd rfl h⟩
        rw [hall]
        exact get_create_write hcr

/-! ## Both implementations -/

theorem publishFile.act_of_absent {u f d : Line} (hd : (Request.publish u f d).Delivered)
    (h : Admitted cwd u.text f.text s)
    (h0 : fileExists (posix cwd) s.tree f.text (userDirPath u.text) = 0) :
    publishFile.act (o.calls cwd) u f d s =
      openWrite (o.calls cwd) (userDirPath u.text ++ f.text) d.text s := by
  have hreg : isusrRegistered (o.calls cwd) s.tree u.text = 1 := h.registered
  have habs : fileExists (o.calls cwd) s.tree f.text (userDirPath u.text) = 0 := h0
  have hpath : strncat (userDirPath u.text) f.text f.length = userDirPath u.text ++ f.text := by
    rw [strncat, hd.2.1.length_eq, List.take_length]
  have hdata : d.text.take d.length = d.text := by
    rw [hd.2.2.length_eq, List.take_length]
  unfold publishFile.act
  rw [if_pos hreg, if_pos (findElementByname_ne_zero_iff.2 h.connected), if_pos habs, hpath, hdata]
  rfl

theorem publishFileRpc1Svc_of_absent {a : PublishArguments} (h : Admitted cwd a.name a.fileName s)
    (h0 : fileExists (posix cwd) s.tree a.fileName (userDirPath a.name) = 0) :
    publishFileRpc1Svc (o.calls cwd) a s =
      openWrite (o.calls cwd) (userDirPath a.name ++ a.fileName) a.fileDescription s := by
  have hreg : isusrRegistered (o.calls cwd) s.tree a.name ≠ 0 := by
    intro hzero
    have hone : isusrRegistered (o.calls cwd) s.tree a.name = 1 := h.registered
    rw [hone] at hzero
    cases hzero
  have habs : ¬ fileExists (o.calls cwd) s.tree a.fileName (userDirPath a.name) ≠ 0 :=
    not_not.2 h0
  have hcon : findElementByname s.connected a.name ≠ 0 :=
    findElementByname_ne_zero_iff.2 h.connected
  unfold publishFileRpc1Svc
  rw [if_neg hreg, if_neg hcon, if_neg habs, strncat, List.take_length]
  rfl

/-- Nothing happens when the file is there already. -/
theorem allOrNothing_of_refused {r : Int × Store} (h1 : r.1 ≠ success) (h2 : r.2 = s) :
    AllOrNothing cwd u f d s r :=
  ⟨fun h => absurd h h1, fun _ => by rw [h2]⟩

theorem publishFile.allOrNothing_iff {u f d : Line} (hd : (Request.publish u f d).Delivered)
    (h : Admitted cwd u.text f.text s) :
    AllOrNothing cwd u.text f.text d.text s (publishFile.act (o.calls cwd) u f d s) ↔
      ¬ CutShort cwd u.text f.text d.text s o := by
  by_cases h0 : fileExists (posix cwd) s.tree f.text (userDirPath u.text) = 0
  · rw [publishFile.act_of_absent hd h h0, allOrNothing_openWrite_iff h.user h.file h0]
    exact not_congr ⟨fun hc => ⟨h0, hc.1, hc.2⟩, fun hc => ⟨hc.opens, hc.short⟩⟩
  · have hrefused : ¬ Publishes (o.calls cwd) s u.text f.text := fun hp => h0 hp.absent
    refine iff_of_true ?_ fun hc => h0 hc.absent
    rcases publishFile.act_cases (o.calls cwd) s u f d with ⟨_, _, _, hp, -⟩ | ⟨_, _, hp, -⟩ |
      ⟨-, h1, h2⟩
    · exact absurd hp hrefused
    · exact absurd hp hrefused
    · exact allOrNothing_of_refused h1 h2

theorem publishFileRpc1Svc_allOrNothing_iff {a : PublishArguments}
    (h : Admitted cwd a.name a.fileName s) :
    AllOrNothing cwd a.name a.fileName a.fileDescription s
        (publishFileRpc1Svc (o.calls cwd) a s) ↔
      ¬ CutShort cwd a.name a.fileName a.fileDescription s o := by
  by_cases h0 : fileExists (posix cwd) s.tree a.fileName (userDirPath a.name) = 0
  · rw [publishFileRpc1Svc_of_absent h h0, allOrNothing_openWrite_iff h.user h.file h0]
    exact not_congr ⟨fun hc => ⟨h0, hc.1, hc.2⟩, fun hc => ⟨hc.opens, hc.short⟩⟩
  · refine iff_of_true ?_ fun hc => h0 hc.absent
    rcases publishFileRpc1Svc_cases (o.calls cwd) s a with ⟨_, _, -, -, habs, -⟩ | ⟨h1, h2⟩
    · exact absurd habs h0
    · exact allOrNothing_of_refused h1 h2

/-- **PUBLISH is all or nothing** in both implementations exactly when a new file that is opened
gets its whole description. -/
theorem publish_allOrNothing_iff {u f d : Line} {a : PublishArguments} (address : Option Bytes)
    (hd : (Request.publish u f d).Delivered) (h : Admitted cwd u.text f.text s)
    (ha : Admitted cwd a.name a.fileName s) :
    (AllOrNothing cwd u.text f.text d.text s
        (serve (o.calls cwd) address (.publish u f d) s) ↔
      ¬ CutShort cwd u.text f.text d.text s o) ∧
    (AllOrNothing cwd a.name a.fileName a.fileDescription s
        (publishFileRpc1Svc (o.calls cwd) a s) ↔
      ¬ CutShort cwd a.name a.fileName a.fileDescription s o) :=
  ⟨publishFile.allOrNothing_iff hd h, publishFileRpc1Svc_allOrNothing_iff ha⟩

/-- `alice`, registered and connected. -/
def aliceStore : Store :=
  let registered := (registerUser.act (posix []) (cstring "alice")
    (initP2pService (posix []) .empty)).2
  (connectUser.act (posix []) (some (cstring "10.0.0.2")) (cstring "alice") (cstring "4001")
    registered).2

theorem admitted_notes : Admitted [] (cstring "alice") (cstring "notes") aliceStore :=
  ⟨by decide, by decide, by decide, by decide⟩

theorem publish_notes_whole :
    let o : WriteOutcome := ⟨true, some 4⟩
    (AllOrNothing [] (cstring "alice") (cstring "notes") (cstring "text") aliceStore
        (serve (o.calls []) none (.publish (Line.of (cstring "alice")) (Line.of (cstring "notes"))
          (Line.of (cstring "text"))) aliceStore) ↔
      ¬ CutShort [] (cstring "alice") (cstring "notes") (cstring "text") aliceStore o) ∧
    (AllOrNothing [] (cstring "alice") (cstring "notes") (cstring "text") aliceStore
        (publishFileRpc1Svc (o.calls []) ⟨cstring "alice", cstring "notes", cstring "text"⟩
          aliceStore) ↔
      ¬ CutShort [] (cstring "alice") (cstring "notes") (cstring "text") aliceStore o) :=
  publish_allOrNothing_iff (u := Line.of (cstring "alice")) (f := Line.of (cstring "notes"))
    (d := Line.of (cstring "text"))
    (a := ⟨cstring "alice", cstring "notes", cstring "text"⟩) none (by decide) admitted_notes
    admitted_notes

/-- A write that fails leaves the empty file behind, which the next try then finds. -/
theorem publish_notes_cut_short :
    ¬ ∀ (cwd : Pos) (s : Store) (o : WriteOutcome) (u f d : Line) (address : Option Bytes),
      (Request.publish u f d).Delivered → Admitted cwd u.text f.text s →
        AllOrNothing cwd u.text f.text d.text s
          (serve (o.calls cwd) address (.publish u f d) s) := by
  intro h
  have hall := h [] aliceStore ⟨true, none⟩ (Line.of (cstring "alice"))
    (Line.of (cstring "notes")) (Line.of (cstring "text")) none (by decide) admitted_notes
  exact absurd (hall.nothing (by decide)) (by decide)

end DistributedSystems.Lab
