import DistributedSystems.Fs.Path
import DistributedSystems.Lab.ClientJava.GetFile

/-!
# The shared files (`clientjava/ManageRequest.java`)

The thread of a connection puts the name that it receives behind `./UserSharedFiles/` and asks for
nothing but the existence of what the path leads to. A name with two dots leaves the directory, and
the empty name is the directory itself. `onlyShared_iff` says for which requests nothing outside is
touched and status 0 means a file.

A path is a path of `java.io.File` here: the names are written in UTF-8, slashes in a row count
once, and a path with a NUL in it is invalid.
-/

namespace DistributedSystems.Lab

open Fs Support TextLines

/-! ## Paths of `java.io.File` -/

/-- The path of a `File`: one slash for several in a row, and none at the end. -/
def normalize (path : Bytes) : Bytes :=
  (if path.head? = some slash then [slash] else []) ++
    [slash].intercalate ((components path).filter (· ≠ []))

theorem not_mem_of_mem_components {path n : Bytes} (h : n ∈ components path) : slash ∉ n := by
  unfold components at h
  induction path generalizing n with
  | nil =>
    rw [List.splitOn_nil, List.mem_singleton] at h
    subst h
    exact List.not_mem_nil
  | cons b path ih =>
    rw [List.splitOn_cons_eq_if_modifyHead] at h
    split at h
    · rcases List.mem_cons.1 h with rfl | h
      · exact List.not_mem_nil
      · exact ih h
    · rename_i hb
      have hb : slash ≠ b := fun he => hb (by rw [he]; exact beq_self_eq_true b)
      cases hs : path.splitOn slash with
      | nil => exact absurd hs (List.splitOn_ne_nil _ _)
      | cons m ms =>
        rw [hs, List.modifyHead_cons] at h
        rcases List.mem_cons.1 h with rfl | h
        · rw [List.mem_cons, not_or]
          exact ⟨hb, ih (hs ▸ List.mem_cons_self)⟩
        · exact ih (hs ▸ List.mem_cons_of_mem m h)

/-- A relative path that names something leads where its names lead, from the working directory. -/
theorem resolve_normalize {cwd : Pos} {t : Tree} {path : Bytes} {n : Bytes} {ns : List Bytes}
    (hpath : path.head? ≠ some slash)
    (hnames : (components path).filter (· ≠ []) = n :: ns) :
    resolve cwd t (normalize path) = walk t cwd (n :: ns) := by
  have hslash : ∀ m ∈ n :: ns, slash ∉ m := by
    intro m hm
    rw [← hnames] at hm
    exact not_mem_of_mem_components (List.mem_filter.1 hm).1
  have hn : n ≠ [] := by
    have hm : n ∈ (components path).filter (· ≠ []) := hnames ▸ List.mem_cons_self
    simpa using (List.mem_filter.1 hm).2
  have hcomponents : components (normalize path) = n :: ns := by
    unfold normalize components
    rw [if_neg hpath, List.nil_append]
    change ([slash].intercalate ((components path).filter (· ≠ []))).splitOn slash = _
    rw [hnames]
    exact List.splitOn_intercalate slash hslash (List.cons_ne_nil _ _)
  have hhead : (normalize path).head? = n.head? := by
    unfold normalize
    rw [if_neg hpath, List.nil_append, hnames]
    obtain ⟨b, n, rfl⟩ := List.exists_cons_of_ne_nil hn
    cases ns with
    | nil => simp
    | cons m ms => simp [List.intercalate_cons_cons]
  have hhead' : (normalize path).head? ≠ some slash := by
    rw [hhead]
    intro h
    exact hslash n List.mem_cons_self (List.mem_of_mem_head? h)
  have hne : normalize path ≠ [] := by
    intro h
    rw [h] at hhead
    exact hn (List.head?_eq_none_iff.1 hhead.symm)
  unfold resolve origin
  rw [if_neg hne, if_neg hhead', hcomponents]

/-! ## The files of a process -/

/-- The files that a process sees. A tree has no symbolic links. -/
structure Files where
  tree : Tree
  cwd : Pos
  /-- Whether the regular file at a position can be read. -/
  readable : Pos → Bool

namespace Files

variable (f : Files)

/-- Where `./UserSharedFiles` is. -/
def shared : Pos := f.cwd ++ [cstring "UserSharedFiles"]

/-- What `stat` finds at the path of a `File`. -/
def find (path : List Char) : Option (Pos × Entry) :=
  let path := normalize (Utf8.encode path)
  if nul ∈ path then none
  else (resolve f.cwd f.tree path).bind fun p => (f.tree.get p).map (p, ·)

/-- `File.exists`. -/
def pathExists (path : List Char) : Bool := (f.find path).isSome

/-- The file that a `FileReader` opens: a regular one that can be read. -/
def fileReader (path : List Char) : Option (Pos × Bytes) :=
  match f.find path with
  | some (p, .file content) => if f.readable p then some (p, content) else none
  | _ => none

/-- A regular file that can be read. -/
def Regular (p : Pos) : Prop := f.readable p = true ∧ ∃ content, f.tree.get p = some (.file content)

end Files

namespace ManageRequest

/-- What a request leads to: the file that was found at its path, the status, the file that was
opened and sent, and all bytes of the answer. -/
structure Handling where
  tested : Option Pos
  status : Option Int
  opened : Option Pos
  response : Bytes
deriving DecidableEq, Repr

/-- `run`, on the files of a process. -/
def handle (C : Charset) (f : Files) (input : Bytes) : Handling :=
  match TextLines.readLine (C.decode input) with
  | none => ⟨none, none, none, []⟩
  | some (operation, rest) =>
    if operation = getFile then
      match TextLines.readLine rest with
      | none => ⟨none, none, none, []⟩
      | some (fileName, _) =>
        let path := filesPath ++ fileName
        let tested := (f.find path).map Prod.fst
        if f.pathExists path then
          match f.fileReader path with
          | none => ⟨tested, some 0, none, writeInt 0⟩
          | some (p, content) =>
            ⟨tested, some 0, some p, writeInt 0 ++ C.encode (lines (C.decode content)).flatten⟩
        else ⟨tested, some 1, none, writeInt 1⟩
    else ⟨none, some 2, none, writeInt 2⟩

/-- The name that a request asks for. -/
def asked (C : Charset) (input : Bytes) : Option (List Char) :=
  (TextLines.readLine (C.decode input)).bind fun (operation, rest) =>
    if operation = getFile then (TextLines.readLine rest).map Prod.fst else none

/-- Only shared files are served: what is tested, opened and sent is inside the directory, and
status 0 is for a regular file that can be read. -/
structure OnlyShared (f : Files) (h : Handling) : Prop where
  tested : ∀ p, h.tested = some p → Below f.shared p
  opened : ∀ p, h.opened = some p → Below f.shared p
  regular : h.status = some 0 → ∃ p, h.tested = some p ∧ f.Regular p

/-- The name leads from the shared directory to a regular file inside that can be read, unless
nothing is there. -/
def Permitted (f : Files) (name : List Char) : Prop :=
  let p := target f.shared (components (Utf8.encode name))
  f.pathExists (filesPath ++ name) = true → Below f.shared p ∧ f.Regular p

section Handle

variable {C : Charset} {f : Files} {input : Bytes} {name : List Char}

/-- A name is resolved from the shared directory. -/
theorem fst_of_find {p : Pos} {e : Entry} (h : f.find (filesPath ++ name) = some (p, e)) :
    p = target f.shared (components (Utf8.encode name)) ∧ f.tree.get p = some e := by
  have hencode : Utf8.encode (filesPath ++ name) =
      (dot ++ slash :: cstring "UserSharedFiles") ++ slash :: Utf8.encode name := by
    unfold Utf8.encode
    rw [List.flatMap_append]
    rfl
  have hnames : (components (Utf8.encode (filesPath ++ name))).filter (· ≠ []) =
      dot :: cstring "UserSharedFiles" :: (components (Utf8.encode name)).filter (· ≠ []) := by
    rw [hencode, components_append_slash, components_append_slash,
      components_of_not_mem (by decide), components_of_not_mem (by decide)]
    rfl
  have hrel : (Utf8.encode (filesPath ++ name)).head? ≠ some slash := by
    rw [hencode]
    exact fun h => absurd (Option.some.inj h) (by decide)
  unfold Files.find at h
  dsimp only at h
  split at h
  · cases h
  · obtain ⟨q, hq, hget⟩ := Option.bind_eq_some_iff.1 h
    obtain ⟨e', he', hpe⟩ := Option.map_eq_some_iff.1 hget
    obtain ⟨rfl, rfl⟩ := Prod.mk.inj hpe
    rw [resolve_normalize hrel hnames] at hq
    refine ⟨?_, he'⟩
    rw [eq_target_of_walk hq, ← target_filter f.shared]
    rfl

theorem fileReader_eq_some_iff {p : Pos} {content : Bytes} {path : List Char} :
    f.fileReader path = some (p, content) ↔
      f.find path = some (p, .file content) ∧ f.readable p = true := by
  unfold Files.fileReader
  cases hfind : f.find path with
  | none => simp
  | some x =>
    obtain ⟨q, e⟩ := x
    cases e with
    | dir => simp
    | file content' =>
      dsimp only
      by_cases hr : f.readable q = true
      · rw [if_pos hr]
        constructor
        · intro h
          obtain ⟨rfl, rfl⟩ := Prod.mk.inj (Option.some.inj h)
          exact ⟨rfl, hr⟩
        · rintro ⟨h, -⟩
          obtain ⟨rfl, he⟩ := Prod.mk.inj (Option.some.inj h)
          rw [Entry.file.inj he]
      · rw [if_neg hr]
        constructor
        · intro h
          cases h
        · rintro ⟨h, hr'⟩
          rw [(Prod.mk.inj (Option.some.inj h)).1] at hr
          exact absurd hr' hr

/-- A request without a name touches no file. -/
theorem handle_of_asked_none (h : asked C input = none) :
    handle C f input = ⟨none, none, none, []⟩ ∨
      handle C f input = ⟨none, some 2, none, writeInt 2⟩ := by
  unfold asked at h
  unfold handle
  cases hoperation : TextLines.readLine (C.decode input) with
  | none => exact .inl rfl
  | some x =>
    obtain ⟨operation, rest⟩ := x
    rw [hoperation] at h
    dsimp only [Option.bind_some] at h ⊢
    by_cases hget : operation = getFile
    · rw [if_pos hget] at h ⊢
      rw [Option.map_eq_none_iff.1 h]
      exact .inl rfl
    · rw [if_neg hget]
      exact .inr rfl

/-- The answer to a request for a name. -/
theorem handle_of_asked (h : asked C input = some name) :
    handle C f input =
      let path := filesPath ++ name
      let tested := (f.find path).map Prod.fst
      if f.pathExists path then
        match f.fileReader path with
        | none => ⟨tested, some 0, none, writeInt 0⟩
        | some (p, content) =>
          ⟨tested, some 0, some p, writeInt 0 ++ C.encode (lines (C.decode content)).flatten⟩
      else ⟨tested, some 1, none, writeInt 1⟩ := by
  unfold asked at h
  obtain ⟨⟨operation, rest⟩, hoperation, hrest⟩ := Option.bind_eq_some_iff.1 h
  dsimp only at hrest
  split at hrest
  · rename_i hget
    obtain ⟨⟨name', rest'⟩, hname, rfl⟩ := Option.map_eq_some_iff.1 hrest
    unfold handle
    rw [hoperation]
    dsimp only
    rw [if_pos hget, hname]
  · cases hrest

/-- Something is there: status 0, whatever it is. -/
theorem handle_of_find {p : Pos} {e : Entry} (h : asked C input = some name)
    (hfind : f.find (filesPath ++ name) = some (p, e)) :
    (handle C f input).tested = some p ∧ (handle C f input).status = some 0 ∧
      ∀ q, (handle C f input).opened = some q → q = p := by
  have hexists : f.pathExists (filesPath ++ name) = true := Option.isSome_of_eq_some hfind
  rw [handle_of_asked h]
  dsimp only
  rw [if_pos hexists]
  cases hreader : f.fileReader (filesPath ++ name) with
  | none =>
    refine ⟨by rw [hfind]; rfl, rfl, ?_⟩
    intro q hq
    cases hq
  | some x =>
    obtain ⟨q, content⟩ := x
    refine ⟨by rw [hfind]; rfl, rfl, ?_⟩
    intro q' hq'
    have hfind' := (fileReader_eq_some_iff.1 hreader).1
    rw [hfind] at hfind'
    rw [← Option.some.inj hq', (Prod.mk.inj (Option.some.inj hfind')).1]

theorem handle_of_find_none (h : asked C input = some name)
    (hfind : f.find (filesPath ++ name) = none) :
    handle C f input = ⟨none, some 1, none, writeInt 1⟩ := by
  have hexists : ¬ f.pathExists (filesPath ++ name) = true := by
    unfold Files.pathExists
    rw [hfind]
    exact Bool.false_ne_true
  rw [handle_of_asked h]
  dsimp only
  rw [if_neg hexists, hfind]
  rfl

/-- An answer that touched no file. -/
theorem onlyShared_of_none {status : Option Int} {response : Bytes} (h : status ≠ some 0) :
    OnlyShared f ⟨none, status, none, response⟩ where
  tested p hp := by cases hp
  opened p hp := by cases hp
  regular h0 := absurd h0 h

/-- What is served is what `run` sends of the files that can be opened. -/
theorem response_of_onlyShared (h : OnlyShared f (handle C f input)) :
    (handle C f input).response = run C (fun path => (f.fileReader path).map Prod.snd) input := by
  have hreader : ∀ name, asked C input = some name →
      f.fileReader (filesPath ++ name) = none → f.find (filesPath ++ name) = none := by
    intro name hasked hnone
    cases hfind : f.find (filesPath ++ name) with
    | none => rfl
    | some x =>
      obtain ⟨p, e⟩ := x
      obtain ⟨htested, hstatus, -⟩ := handle_of_find (f := f) hasked hfind
      obtain ⟨q, hq, hreadable, content, hcontent⟩ := h.regular hstatus
      rw [htested] at hq
      obtain rfl := Option.some.inj hq
      obtain rfl := Option.some.inj ((fst_of_find hfind).2.symm.trans hcontent)
      rw [fileReader_eq_some_iff.2 ⟨hfind, hreadable⟩] at hnone
      cases hnone
  unfold asked at hreader
  unfold handle run
  cases hoperation : TextLines.readLine (C.decode input) with
  | none => rfl
  | some x =>
    obtain ⟨operation, rest⟩ := x
    rw [hoperation, Option.bind_some] at hreader
    dsimp only at hreader ⊢
    by_cases hget : operation = getFile
    · rw [if_pos hget] at hreader ⊢
      rw [if_pos hget]
      cases hname : TextLines.readLine rest with
      | none => rfl
      | some y =>
        obtain ⟨name, rest'⟩ := y
        have hnone := hreader name (by rw [hname]; rfl)
        dsimp only
        unfold Files.pathExists
        cases hopen : f.fileReader (filesPath ++ name) with
        | none =>
          rw [hnone hopen]
          rfl
        | some z =>
          obtain ⟨p, content⟩ := z
          rw [(fileReader_eq_some_iff.1 hopen).1]
          rfl
    · rw [if_neg hget, if_neg hget]

/-- **Only shared files are served** exactly to the requests whose name leads to one, or to
nothing. -/
theorem onlyShared_iff (C : Charset) (f : Files) (input : Bytes) :
    OnlyShared f (handle C f input) ↔
      ∀ name, asked C input = some name → Permitted f name := by
  cases hasked : asked C input with
  | none =>
    have honly : OnlyShared f (handle C f input) := by
      rcases handle_of_asked_none (f := f) hasked with h | h
      · rw [h]
        exact onlyShared_of_none nofun
      · rw [h]
        exact onlyShared_of_none (by decide)
    exact iff_of_true honly nofun
  | some name =>
    have hname : (∀ name', some name = some name' → Permitted f name') ↔ Permitted f name :=
      ⟨fun h => h name rfl, fun h _ he => Option.some.inj he ▸ h⟩
    rw [hname]
    cases hfind : f.find (filesPath ++ name) with
    | none =>
      rw [handle_of_find_none hasked hfind]
      refine iff_of_true (onlyShared_of_none (by decide)) ?_
      intro hexists
      unfold Files.pathExists at hexists
      rw [hfind] at hexists
      cases hexists
    | some x =>
      obtain ⟨p, e⟩ := x
      obtain ⟨htested, hstatus, hopened⟩ := handle_of_find hasked hfind
      obtain ⟨hp, -⟩ := fst_of_find hfind
      constructor
      · intro honly _
        rw [← hp]
        refine ⟨honly.tested p htested, ?_⟩
        obtain ⟨q, hq, hregular⟩ := honly.regular hstatus
        rw [htested] at hq
        exact Option.some.inj hq ▸ hregular
      · intro hpermitted
        obtain ⟨hbelow, hregular⟩ := hpermitted (Option.isSome_of_eq_some hfind)
        rw [← hp] at hbelow hregular
        refine ⟨?_, ?_, fun _ => ⟨p, htested, hregular⟩⟩
        · intro q hq
          rw [htested] at hq
          exact Option.some.inj hq ▸ hbelow
        · intro q hq
          exact hopened q hq ▸ hbelow

end Handle

/-- A shared directory beside a file that is not shared. -/
def secretBeside : Files where
  tree := ⟨[([cstring "UserSharedFiles"], .dir), ([cstring "secret"], .file [120])],
    by decide, by
      intro p n e h
      have hp : p.length + 1 = 1 := by
        rcases List.mem_cons.1 h with h | h
        · simpa using congrArg (List.length ∘ Prod.fst) h
        · simpa using congrArg (List.length ∘ Prod.fst) (List.mem_singleton.1 h)
      exact .inl (List.length_eq_zero_iff.1 (by omega)), by
      intro q e h
      rcases List.mem_cons.1 h with h | h
      · rw [(Prod.mk.inj h).1]
        exact ⟨by decide, by decide⟩
      · rw [(Prod.mk.inj (List.mem_singleton.1 h)).1]
        exact ⟨by decide, by decide⟩⟩
  cwd := []
  readable _ := true

/-- A request for `../secret` is answered with a file outside. -/
theorem secret_served :
    ¬ ∀ (C : Charset) (f : Files) (input : Bytes), OnlyShared f (handle C f input) := by
  intro h
  have hopened := (h .utf8 secretBeside (cstring "GET_FILE\n../secret\n")).opened
    [cstring "secret"] (by decide +kernel)
  exact absurd hopened.1 (by decide)

end ManageRequest

end DistributedSystems.Lab
