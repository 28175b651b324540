import DistributedSystems.Lab.ServerC.TreeCalls

/-!
# A file is published once

PUBLISH looks for the file, opens it with `O_CREAT` and writes to it, and only the first of these
calls tells a file of somebody else from a new one. As long as every `open` makes its file and every
`write` still finds it in the tree, at most one PUBLISH of a name succeeds before the file is
removed again, and the file holds what that one wrote (`published_once`). Nothing in the code makes
that so: `published_twice` is a schedule of two threads.
-/

namespace DistributedSystems.Lab.Preemptive

open Fs Support

/-- Where the file of a plain name is. -/
def filePos (cwd : Pos) (u f : Bytes) : Pos := usersPos cwd ++ [u] ++ [f]

/-- The description that the connection asks to publish under these names. -/
def Connection.publishes (u f : Bytes) (k : Connection) : Option Bytes :=
  match k.operation with
  | .change (.publish userName fileName fileDescription) =>
    if userName.text = u ∧ fileName = .of f then some (description fileDescription) else none
  | _ => none

/-- The description of the PUBLISH of these names that the move ends with SUCCESS. -/
def published (cwd : Pos) (depth : Nat) (u f : Bytes) (x : ServerPool × ServerMove) :
    Option Bytes :=
  match (server cwd depth).returned x.1 x.2 with
  | some (k, .status output) => if output = success then k.publishes u f else none
  | _ => none

/-- The descriptions published under these names since the file was last removed. -/
def publications (cwd : Pos) (depth : Nat) (u f : Bytes) (steps : List (ServerPool × ServerMove)) :
    List Bytes :=
  (since (takesAway cwd depth (filePos cwd u f)) steps).filterMap (published cwd depth u f)

/-- An `open` finds no file at its path, and a `write` finds its file not removed. -/
def fresh (cwd : Pos) (p : ServerPool) (m : ServerMove) : Bool :=
  match System.called p m with
  | some (_, .openCreate path) => ((posix cwd).stat p.shared.store.tree path).isNone
  | some (_, .write file _) => p.shared.Alive file
  | _ => true

/-- Every `open` and every `write` of the run does. -/
def Undisputed (cwd : Pos) (steps : List (ServerPool × ServerMove)) : Prop :=
  Guarded (fun p m => fresh cwd p m = true) steps

instance (cwd : Pos) (steps : List (ServerPool × ServerMove)) : Decidable (Undisputed cwd steps) :=
  inferInstanceAs (Decidable (Guarded _ steps))

theorem publishes_eq_some_iff {u f d : Bytes} {k : Connection} :
    k.publishes u f = some d ↔ ∃ userName fileDescription,
      k.operation = .change (.publish userName (.of f) fileDescription) ∧ userName.text = u ∧
        description fileDescription = d := by
  unfold Connection.publishes
  split
  · rename_i userName fileName fileDescription hk
    rw [hk]
    constructor
    · intro h
      split at h
      · rename_i hnames
        obtain ⟨rfl, rfl⟩ := hnames
        exact ⟨userName, fileDescription, rfl, rfl, Option.some.inj h⟩
      · cases h
    · rintro ⟨_, _, hop, rfl, rfl⟩
      obtain ⟨rfl, rfl, rfl⟩ := Request.publish.inj (Operation.change.inj hop)
      exact if_pos ⟨rfl, rfl⟩
  · rename_i hne
    refine iff_of_false nofun ?_
    rintro ⟨userName, fileDescription, hk, -⟩
    exact hne _ _ _ hk

/-- A step that takes the file away forgets its publications, and any other may add one. -/
theorem publications_snoc (cwd : Pos) (depth : Nat) (u f : Bytes)
    (steps : List (ServerPool × ServerMove)) (x : ServerPool × ServerMove) :
    publications cwd depth u f (steps ++ [x]) =
      if takesAway cwd depth (filePos cwd u f) x then []
      else publications cwd depth u f steps ++ (published cwd depth u f x).toList := by
  unfold publications
  rw [since_snoc]
  split
  · rfl
  · rw [List.filterMap_append]
    cases h : published cwd depth u f x <;> simp [h]

/-! ## Open files -/

/-- The rest of a handler begins with a write to the file at `q`, which is still the one that was
opened. -/
def writing (q : Pos) (m : Machine) (rest : Handler) : Bool :=
  match rest.action? with
  | some (.write file _) => file.pos = q ∧ m.Alive file
  | _ => false

/-- How many threads are about to write to the file at `q`. -/
def writers (q : Pos) (p : ServerPool) : Nat := p.threads.countP fun t => writing q p.shared t.rest

theorem writing_of_no_write {q : Pos} {m : Machine} {rest : Handler}
    (h : ∀ a, rest.action? = some a → a.writes = false) : writing q m rest = false := by
  unfold writing
  split
  · rename_i file data ha
    cases h _ ha
  · rfl

theorem writing_congr {q : Pos} {m m' : Machine} (h : m'.removals q = m.removals q)
    (rest : Handler) : writing q m' rest = writing q m rest := by
  unfold writing
  split
  · rename_i file data ha
    apply decide_eq_decide.2
    refine and_congr_right fun hpos => ?_
    unfold Machine.Alive
    rw [hpos, h]
  · rfl

/-! ## One call -/

/-- A publication creates. -/
theorem creates_of_publishes {u f d : Bytes} {k : Connection} (h : k.publishes u f = some d) :
    k.Creates := by
  obtain ⟨userName, fileDescription, hk, -⟩ := publishes_eq_some_iff.1 h
  exact Or.inr ⟨_, _, _, hk⟩

/-- What is left of a handler is about to write to no file, and has published nothing under these
names. -/
structure Idle (u f : Bytes) (k : Connection) (rest : Handler) : Prop where
  no_write : ∀ a, rest.action? = some a → a.writes = false
  unpublished : rest.result? = some (.status success) → k.publishes u f = none

theorem Ordinary.idle {k : Connection} {rest : Handler} (h : Ordinary k rest) (u f : Bytes) :
    Idle u f k rest where
  no_write := h.no_write
  unpublished hres := by
    obtain ⟨output, hstatus, hne⟩ := h.status _ hres
    cases hp : k.publishes u f with
    | none => rfl
    | some d => exact absurd (Outcome.status.inj hstatus).symm (hne (creates_of_publishes hp))

theorem idle_return {k : Connection} {output : Int} (h : output ≠ success) (u f : Bytes) :
    Idle u f k (returnStatus output) :=
  (Ordinary.return fun _ => h).idle u f

/-- What follows a call that neither opens nor writes to a file. -/
theorem Stage.idle {k : Connection} {a : Call} {next : a.Answer → Handler} (hs : Stage k a next)
    (ha : a.publishes = false) (u f : Bytes) (x : a.Answer) : Idle u f k (next x) := by
  cases hs with
  | making hk =>
    have hnone : k.publishes u f = none := by
      unfold Connection.publishes
      rw [hk]
    refine ⟨?_, fun _ => hnone⟩
    unfold registerUser.made
    split
    · exact nofun
    · exact nofun
  | opening => cases ha
  | writing => cases ha
  | taking =>
    cases x with
    | none => exact idle_return (by decide) u f
    | some users => exact ⟨fun a ha => Option.some.inj ha ▸ rfl, nofun⟩
  | sizing users => exact ⟨nofun, nofun⟩
  | counting directory => exact ⟨fun a ha => Option.some.inj ha ▸ rfl, nofun⟩
  | sending directory n => exact ⟨nofun, nofun⟩
  | other _ _ hother => exact (hother x).idle u f

/-- What follows an `open` that fails. -/
theorem Stage.idle_notOpened {k : Connection} {path : Bytes} {next : Option Descriptor → Handler}
    (hs : Stage k (.openCreate path) next) (u f : Bytes) : Idle u f k (next none) := by
  cases hs with
  | opening => exact idle_return (by decide) u f
  | other _ _ hother => exact (hother none).idle u f

/-- What follows a `write` that fails. -/
theorem Stage.idle_notWritten {k : Connection} {file : Descriptor} {data : Bytes}
    {next : Int → Handler} (hs : Stage k (.write file data) next) (u f : Bytes) :
    Idle u f k (next (-1)) := by
  cases hs with
  | writing => exact idle_return (by decide) u f
  | other _ _ hother => exact (hother (-1 : Int)).idle u f

/-- A PUBLISH goes on to write what it was asked to, to the file that it has opened. -/
theorem Stage.opened {k : Connection} {path : Bytes} {next : Option Descriptor → Handler}
    (hs : Stage k (.openCreate path) next) (u f : Bytes) (file : Descriptor) :
    Idle u f k (next (some file)) ∨ ∃ userName fileName fileDescription,
      k.operation = .change (.publish userName fileName fileDescription) ∧
        path = filePath userName fileName ∧
          next (some file) = .call (.write file (description fileDescription))
            publishFile.written := by
  cases hs with
  | opening hk => exact Or.inr ⟨_, _, _, hk, rfl, rfl⟩
  | other _ _ hother => exact Or.inl ((hother (some file)).idle u f)

/-- A PUBLISH that has written ends with SUCCESS. -/
theorem Stage.written {k : Connection} {file : Descriptor} {data : Bytes} {next : Int → Handler}
    (hs : Stage k (.write file data) next) (u f : Bytes) :
    (∀ a, (next 0).action? = some a → a.writes = false) ∧
      ((next 0).result? = some (.status success) → ∀ d ∈ k.publishes u f, d = data) := by
  cases hs with
  | writing hk =>
    refine ⟨nofun, fun _ d hd => ?_⟩
    obtain ⟨userName, fileDescription, hop, -, rfl⟩ := publishes_eq_some_iff.1 hd
    obtain ⟨-, -, rfl⟩ := Request.publish.inj (Operation.change.inj (hk.symm.trans hop))
    rfl
  | other _ _ hother =>
    refine ⟨(hother (0 : Int)).no_write, fun hres d hd => ?_⟩
    rw [((hother (0 : Int)).idle u f).unpublished hres] at hd
    cases hd

/-! ### Paths -/

/-- The file that the path of plain names leads to. -/
theorem filePos_of_leaf {cwd p : Pos} {t : Tree} {userName : Line} {f n : Bytes}
    (hu : ValidName userName.text) (hf : ValidName f)
    (hleaf : leaf t (origin cwd (filePath userName (.of f)))
      (components (filePath userName (.of f))) = some (p, n)) :
    p ++ [n] = filePos cwd userName.text f := by
  have hcomponents : components (filePath userName (.of f)) =
      [dot, users, userName.text] ++ [f] := by
    unfold filePath Line.of
    rw [components_filePath, List.take_length, components_of_not_mem hu.2.1,
      components_of_not_mem hf.2.1]
    rfl
  have horigin : origin cwd (filePath userName (.of f)) = cwd := rfl
  rw [hcomponents, horigin] at hleaf
  obtain ⟨ds, hds, hw, -⟩ := leaf_eq_some_iff.1 hleaf
  obtain ⟨rfl, rfl⟩ := List.append_singleton_inj.1 hds
  have hp : resolve cwd t (userPath userName.text) = some p := by
    unfold resolve
    rw [if_neg (userPath_ne_nil _), components_userPath, components_of_not_mem hu.2.1,
      origin_userPath]
    exact hw
  rw [resolve_userPath_eq_some hu hp]
  rfl

/-- A file that `open` opens can be asked for. -/
theorem stat_of_leaf {cwd p : Pos} {t : Tree} {path n : Bytes} {e : Entry}
    (hleaf : leaf t (origin cwd path) (components path) = some (p, n))
    (hget : t.get (p ++ [n]) = some e) : (posix cwd).stat t path = some e := by
  have hn := Tree.validName_of_get hget
  have hpath : path ≠ [] := by
    rintro rfl
    obtain ⟨ds, hds, -⟩ := leaf_eq_some_iff.1 hleaf
    obtain ⟨-, rfl⟩ := List.append_singleton_inj.1 (show [] ++ [[]] = ds ++ [n] from hds)
    exact hn.1 rfl
  refine posix.stat_eq_some_iff.2 ⟨p ++ [n], ?_, hget⟩
  unfold resolve
  rw [if_neg hpath]
  exact walk_of_leaf hn hleaf (Option.isSome_of_eq_some hget)

theorem published_of_returned {cwd : Pos} {depth : Nat} {u f : Bytes} {p : ServerPool}
    {m : ServerMove} {k : Connection} {rest : Handler}
    (hr : (server cwd depth).returned p m = rest.result?.map (k, ·)) :
    published cwd depth u f (p, m) =
      if rest.result? = some (.status success) then k.publishes u f else none := by
  unfold published
  dsimp only
  rw [hr]
  cases rest.result? with
  | none => rfl
  | some o =>
    cases o with
    | status output => simp
    | users snapshot announced sent => simp
    | content announced sent => simp

/-! ## The invariant -/

/-- A thread about to write has opened its file before, under its name. -/
def Opened (cwd : Pos) (u f : Bytes) (m : Machine) (t : Thread Connection Call.Answer Outcome) :
    Prop :=
  ∀ file data, t.rest.action? = some (.write file data) →
    file.generation ≤ m.removals file.pos ∧
      ((t.request.publishes u f).isSome → file.pos = filePos cwd u f)

/-- The invariant: one thread is about to write to an empty file and nothing has been published, or
none is and the file holds what has been. -/
structure Publishing (cwd : Pos) (depth : Nat) (u f : Bytes)
    (steps : List (ServerPool × ServerMove)) (p : ServerPool) : Prop where
  always : p.Always Stage
  opened : ∀ t ∈ p.threads, Opened cwd u f p.shared t
  writers_le : writers (filePos cwd u f) p ≤ 1
  writer : writers (filePos cwd u f) p = 1 → publications cwd depth u f steps = [] ∧
    p.shared.store.tree.get (filePos cwd u f) = some (.file [])
  content : publications cwd depth u f steps = [] ∨ ∃ d,
    publications cwd depth u f steps = [d] ∧
      p.shared.store.tree.get (filePos cwd u f) = some (.file d)

section Invariant

variable {cwd : Pos} {depth : Nat} {u f : Bytes} {steps : List (ServerPool × ServerMove)}
  {p : ServerPool} {mv : ServerMove}

/-- More removals leave a descriptor as opened before them. -/
theorem Opened.mono {m m' : Machine} {t : Thread Connection Call.Answer Outcome}
    (h : Opened cwd u f m t) (hle : ∀ q, m.removals q ≤ m'.removals q) : Opened cwd u f m' t :=
  fun file data ha => ⟨(h file data ha).1.trans (hle _), (h file data ha).2⟩

theorem opened_of_no_write {m : Machine} {k : Connection} {rest : Handler}
    (h : ∀ a, rest.action? = some a → a.writes = false) : Opened cwd u f m ⟨k, rest⟩ :=
  fun file data ha => by cases h _ ha

/-- The writers of a file: one thread's part, and those of the others. -/
theorem writers_split {q : Pos} {before after : List (Thread Connection Call.Answer Outcome)}
    {t : Thread Connection Call.Answer Outcome} (m : Machine) :
    writers q ⟨m, before ++ t :: after⟩ =
      writers q ⟨m, before ++ after⟩ + if writing q m t.rest then 1 else 0 := by
  unfold writers
  simp only [List.countP_append, List.countP_cons]
  omega

theorem writers_congr {q : Pos} {m m' : Machine} (h : m'.removals q = m.removals q)
    (threads : List (Thread Connection Call.Answer Outcome)) :
    writers q ⟨m', threads⟩ = writers q ⟨m, threads⟩ :=
  List.countP_congr fun t _ => by simp only [writing_congr h]

/-! ### Moves -/

section Call

variable {before after : List (Thread Connection Call.Answer Outcome)} {k : Connection} {a : Call}
  {next : a.Answer → Handler} {m' : Machine} {rest : Handler}

/-- The threads that do not move have opened their files before. -/
theorem Publishing.opened_others (h : Publishing cwd depth u f steps p)
    (ht : p.threads = before ++ ⟨k, .call a next⟩ :: after)
    (hgrow : ∀ q, p.shared.removals q ≤ m'.removals q)
    (hopened : Opened cwd u f m' ⟨k, rest⟩) :
    ∀ t ∈ before ++ ⟨k, rest⟩ :: after, Opened cwd u f m' t := by
  intro t hmem
  have hold : t ∈ before ∨ t ∈ after → Opened cwd u f m' t := by
    intro hother
    refine (h.opened t ?_).mono hgrow
    rw [ht, List.mem_append, List.mem_cons]
    exact hother.imp_right Or.inr
  rcases List.mem_append.1 hmem with hmem | hmem
  · exact hold (Or.inl hmem)
  · rcases List.mem_cons.1 hmem with rfl | hmem
    · exact hopened
    · exact hold (Or.inr hmem)

theorem writers_eq (ht : p.threads = before ++ ⟨k, .call a next⟩ :: after) (q : Pos) :
    writers q p = writers q ⟨p.shared, before ++ after⟩ +
      if writing q p.shared (.call a next) then 1 else 0 := by
  rw [← writers_split (t := ⟨k, .call a next⟩)]
  unfold writers
  rw [ht]

/-- A call after which the thread is not about to write to the file, and that leaves alone what is
there. -/
theorem Publishing.quiet (h : Publishing cwd depth u f steps p)
    (ht : p.threads = before ++ ⟨k, .call a next⟩ :: after)
    (halways : Pool.Always Stage ⟨m', before ++ ⟨k, rest⟩ :: after⟩)
    (hopened : Opened cwd u f m' ⟨k, rest⟩) (hgrow : ∀ q, p.shared.removals q ≤ m'.removals q)
    (hsame : m'.removals (filePos cwd u f) = p.shared.removals (filePos cwd u f))
    (hget : ∀ e, p.shared.store.tree.get (filePos cwd u f) = some e →
      m'.store.tree.get (filePos cwd u f) = some e)
    (hrest : writing (filePos cwd u f) m' rest = false)
    (hpub : publications cwd depth u f (steps ++ [(p, mv)]) = publications cwd depth u f steps) :
    Publishing cwd depth u f (steps ++ [(p, mv)]) ⟨m', before ++ ⟨k, rest⟩ :: after⟩ := by
  have hle : writers (filePos cwd u f) ⟨m', before ++ ⟨k, rest⟩ :: after⟩ ≤
      writers (filePos cwd u f) p := by
    rw [writers_eq ht, writers_split, writers_congr hsame, if_neg (by simp [hrest])]
    exact Nat.le_add_right _ _
  have hone := h.writers_le
  refine ⟨halways, h.opened_others ht hgrow hopened, by omega, fun hw => ?_, ?_⟩
  · obtain ⟨hnil, hempty⟩ := h.writer (by omega)
    exact ⟨hpub.trans hnil, hget _ hempty⟩
  · rw [hpub]
    exact h.content.imp_right fun ⟨d, hd, hfile⟩ => ⟨d, hd, hget _ hfile⟩

/-- The file is removed: those who hold it open have lost it. -/
theorem Publishing.removed (h : Publishing cwd depth u f steps p)
    (ht : p.threads = before ++ ⟨k, .call a next⟩ :: after)
    (halways : Pool.Always Stage ⟨m', before ++ ⟨k, rest⟩ :: after⟩)
    (hopened : Opened cwd u f m' ⟨k, rest⟩) (hgrow : ∀ q, p.shared.removals q ≤ m'.removals q)
    (hgone : m'.removals (filePos cwd u f) = p.shared.removals (filePos cwd u f) + 1)
    (hrest : writing (filePos cwd u f) m' rest = false)
    (hpub : publications cwd depth u f (steps ++ [(p, mv)]) = []) :
    Publishing cwd depth u f (steps ++ [(p, mv)]) ⟨m', before ++ ⟨k, rest⟩ :: after⟩ := by
  have hdead : ∀ t ∈ before ++ after, ¬ writing (filePos cwd u f) m' t.rest = true := by
    intro t hmem hwriting
    have hold : Opened cwd u f p.shared t := by
      refine h.opened t ?_
      rw [ht, List.mem_append, List.mem_cons]
      exact (List.mem_append.1 hmem).imp_right Or.inr
    unfold writing at hwriting
    split at hwriting
    · rename_i file data ha
      obtain ⟨hpos, halive⟩ := of_decide_eq_true hwriting
      have hle := (hold file data ha).1
      unfold Machine.Alive at halive
      rw [hpos] at hle halive
      omega
    · cases hwriting
  have hzero : writers (filePos cwd u f) ⟨m', before ++ ⟨k, rest⟩ :: after⟩ = 0 := by
    rw [writers_split, if_neg (by simp [hrest])]
    exact List.countP_eq_zero.2 hdead
  exact ⟨halways, h.opened_others ht hgrow hopened, by omega, fun hw => by omega, Or.inl hpub⟩

/-- The file is made, and perhaps about to be written to. -/
theorem Publishing.created (h : Publishing cwd depth u f steps p)
    (ht : p.threads = before ++ ⟨k, .call a next⟩ :: after)
    (halways : Pool.Always Stage ⟨m', before ++ ⟨k, rest⟩ :: after⟩)
    (hopened : Opened cwd u f m' ⟨k, rest⟩) (hgrow : ∀ q, p.shared.removals q ≤ m'.removals q)
    (hsame : m'.removals (filePos cwd u f) = p.shared.removals (filePos cwd u f))
    (hnone : p.shared.store.tree.get (filePos cwd u f) = none)
    (hempty : m'.store.tree.get (filePos cwd u f) = some (.file []))
    (hpub : publications cwd depth u f (steps ++ [(p, mv)]) = publications cwd depth u f steps) :
    Publishing cwd depth u f (steps ++ [(p, mv)]) ⟨m', before ++ ⟨k, rest⟩ :: after⟩ := by
  have hnil : publications cwd depth u f steps = [] := by
    refine h.content.resolve_right ?_
    rintro ⟨d, -, hfile⟩
    rw [hnone] at hfile
    cases hfile
  have hnobody : writers (filePos cwd u f) p ≠ 1 := by
    intro hw
    have hfile := (h.writer hw).2
    rw [hnone] at hfile
    cases hfile
  have hle := h.writers_le
  have hwriters := writers_eq ht (filePos cwd u f)
  refine ⟨halways, h.opened_others ht hgrow hopened, ?_, fun _ => ⟨hpub.trans hnil, hempty⟩,
    Or.inl (hpub.trans hnil)⟩
  rw [writers_split, writers_congr hsame]
  split <;> omega

/-- The thread that was about to write has written. -/
theorem Publishing.written (h : Publishing cwd depth u f steps p)
    (ht : p.threads = before ++ ⟨k, .call a next⟩ :: after)
    (halways : Pool.Always Stage ⟨m', before ++ ⟨k, rest⟩ :: after⟩)
    (hopened : Opened cwd u f m' ⟨k, rest⟩) (hgrow : ∀ q, p.shared.removals q ≤ m'.removals q)
    (hsame : m'.removals (filePos cwd u f) = p.shared.removals (filePos cwd u f))
    (hwas : writing (filePos cwd u f) p.shared (.call a next) = true)
    (hrest : writing (filePos cwd u f) m' rest = false) (data : Bytes)
    (hfile : p.shared.store.tree.get (filePos cwd u f) = some (.file []) →
      m'.store.tree.get (filePos cwd u f) = some (.file data))
    (hpub : ∀ d ∈ published cwd depth u f (p, mv), d = data)
    (hkept : takesAway cwd depth (filePos cwd u f) (p, mv) = false) :
    Publishing cwd depth u f (steps ++ [(p, mv)]) ⟨m', before ++ ⟨k, rest⟩ :: after⟩ := by
  have hle := h.writers_le
  have hwriters := writers_eq ht (filePos cwd u f)
  rw [if_pos hwas] at hwriters
  obtain ⟨hnil, hempty⟩ := h.writer (by omega)
  have hzero : writers (filePos cwd u f) ⟨m', before ++ ⟨k, rest⟩ :: after⟩ = 0 := by
    rw [writers_split, writers_congr hsame, if_neg (by simp [hrest])]
    omega
  refine ⟨halways, h.opened_others ht hgrow hopened, by omega, fun hw => by omega, ?_⟩
  rw [publications_snoc, if_neg (by simp [hkept]), hnil, List.nil_append]
  cases hp : published cwd depth u f (p, mv) with
  | none => exact Or.inl rfl
  | some d =>
    obtain rfl := hpub d hp
    exact Or.inr ⟨d, rfl, hfile hempty⟩

/-- A call that is no publication, and that leaves alone what is there. -/
theorem Publishing.idle (h : Publishing cwd depth u f steps p)
    (ht : p.threads = before ++ ⟨k, .call a next⟩ :: after)
    (halways : Pool.Always Stage ⟨m', before ++ ⟨k, rest⟩ :: after⟩) (hidle : Idle u f k rest)
    (hgrow : ∀ q, p.shared.removals q ≤ m'.removals q)
    (hsame : m'.removals (filePos cwd u f) = p.shared.removals (filePos cwd u f))
    (hget : ∀ e, p.shared.store.tree.get (filePos cwd u f) = some e →
      m'.store.tree.get (filePos cwd u f) = some e)
    (hpublished : published cwd depth u f (p, mv) =
      if rest.result? = some (.status success) then k.publishes u f else none)
    (hkept : takesAway cwd depth (filePos cwd u f) (p, mv) = false) :
    Publishing cwd depth u f (steps ++ [(p, mv)]) ⟨m', before ++ ⟨k, rest⟩ :: after⟩ := by
  have hnone : published cwd depth u f (p, mv) = none := by
    rw [hpublished]
    split
    · exact hidle.unpublished ‹_›
    · rfl
  refine h.quiet ht halways (opened_of_no_write hidle.no_write) hgrow hsame hget
    (writing_of_no_write hidle.no_write) ?_
  rw [publications_snoc, if_neg (by simp [hkept]), hnone]
  exact List.append_nil _

/-- What a thread does with a file that it has opened. -/
theorem opened_of_stage {k : Connection} {path n : Bytes} {next : Option Descriptor → Handler}
    {q : Pos} {t : Tree} {file : Descriptor} (hu : ValidName u) (hf : ValidName f)
    (hs : Stage k (.openCreate path) next)
    (hleaf : leaf t (origin cwd path) (components path) = some (q, n))
    (hpos : file.pos = q ++ [n]) (hgeneration : file.generation ≤ m'.removals file.pos) :
    Opened cwd u f m' ⟨k, next (some file)⟩ := by
  rcases hs.opened u f file with hidle | ⟨userName, fileName, fileDescription, hk, rfl, hnext⟩
  · exact opened_of_no_write hidle.no_write
  · intro file' data ha
    rw [hnext] at ha
    obtain ⟨rfl, rfl⟩ := Call.write.inj (Option.some.inj ha)
    refine ⟨hgeneration, fun hsome => ?_⟩
    obtain ⟨d, hd⟩ := Option.isSome_iff_exists.1 hsome
    obtain ⟨userName', fileDescription', hop, rfl, -⟩ := publishes_eq_some_iff.1 hd
    obtain ⟨rfl, rfl, rfl⟩ := Request.publish.inj (Operation.change.inj (hk.symm.trans hop))
    exact hpos.trans (filePos_of_leaf hu hf hleaf)

/-- An `open` that makes a file. -/
theorem Publishing.open_creates (hu : ValidName u) (hf : ValidName f)
    (h : Publishing cwd depth u f steps p) {path n : Bytes} {next : Option Descriptor → Handler}
    {q : Pos} {t : Tree} (ht : p.threads = before ++ ⟨k, .call (.openCreate path) next⟩ :: after)
    (hleaf : leaf p.shared.store.tree (origin cwd path) (components path) = some (q, n))
    (hcreate : p.shared.store.tree.create q n (.file []) = some t)
    (hrest : rest = next (some ((p.shared.withTree t).opened (q ++ [n]))))
    (halways : Pool.Always Stage ⟨p.shared.withTree t, before ++ ⟨k, rest⟩ :: after⟩)
    (hpublished : published cwd depth u f (p, mv) =
      if rest.result? = some (.status success) then k.publishes u f else none)
    (hkept : takesAway cwd depth (filePos cwd u f) (p, mv) = false) :
    Publishing cwd depth u f (steps ++ [(p, mv)])
      ⟨p.shared.withTree t, before ++ ⟨k, rest⟩ :: after⟩ := by
  have hs : Stage k (.openCreate path) next := h.always.call ht
  have hget := Tree.get_create hcreate (filePos cwd u f)
  have hsame : (p.shared.withTree t).removals (filePos cwd u f) =
      p.shared.removals (filePos cwd u f) :=
    Machine.removals_withTree_of_kept fun e he => by
      rw [Tree.get_of_create hcreate he]
      exact nofun
  have hgrow := p.shared.removals_le_withTree t
  have hopened : Opened cwd u f (p.shared.withTree t) ⟨k, rest⟩ :=
    hrest ▸ opened_of_stage hu hf hs hleaf rfl (Nat.le_refl _)
  -- the thread has still to write
  have hnone : published cwd depth u f (p, mv) = none := by
    rw [hpublished, hrest]
    split
    · rename_i hres
      rcases hs.opened u f ((p.shared.withTree t).opened (q ++ [n])) with hidle |
        ⟨_, _, _, -, -, hnext⟩
      · exact hidle.unpublished hres
      · rw [hnext] at hres
        cases hres
    · rfl
  have hpub : publications cwd depth u f (steps ++ [(p, mv)]) =
      publications cwd depth u f steps := by
    rw [publications_snoc, if_neg (by simp [hkept]), hnone]
    exact List.append_nil _
  by_cases hpos : filePos cwd u f = q ++ [n]
  · rw [if_pos hpos] at hget
    have hnew := Tree.create_isSome_iff.1 (Option.isSome_of_eq_some hcreate)
    exact h.created ht halways hopened hgrow hsame (hpos ▸ hnew.2.1) hget hpub
  · rw [if_neg hpos] at hget
    refine h.quiet ht halways hopened hgrow hsame (fun e he => hget.trans he) ?_ hpub
    rcases hs.opened u f ((p.shared.withTree t).opened (q ++ [n])) with hidle |
      ⟨_, _, _, -, -, hnext⟩
    · rw [hrest]
      exact writing_of_no_write hidle.no_write
    · rw [hrest, hnext]
      exact decide_eq_false fun hwriting => hpos hwriting.1.symm

/-- A call that takes away an entry. -/
theorem Publishing.erases (h : Publishing cwd depth u f steps p)
    (ht : p.threads = before ++ ⟨k, .call a next⟩ :: after) (ha : a.removes = true) {q : Pos}
    {t : Tree} (hq : q ≠ []) (herase : p.shared.store.tree.erase q = some t)
    (halways : Pool.Always Stage ⟨p.shared.withTree t, before ++ ⟨k, rest⟩ :: after⟩)
    (hidle : Idle u f k rest)
    (hpublished : published cwd depth u f (p, mv) =
      if rest.result? = some (.status success) then k.publishes u f else none)
    (htakes : takesAway cwd depth (filePos cwd u f) (p, mv) =
      (a.removes && (p.shared.store.tree.get (filePos cwd u f)).isSome &&
        (t.get (filePos cwd u f)).isNone)) :
    Publishing cwd depth u f (steps ++ [(p, mv)])
      ⟨p.shared.withTree t, before ++ ⟨k, rest⟩ :: after⟩ := by
  have hget := Tree.get_erase hq herase (filePos cwd u f)
  by_cases hgone : filePos cwd u f = q ∧ (p.shared.store.tree.get q).isSome
  · obtain ⟨rfl, hsome⟩ := hgone
    rw [if_pos rfl] at hget
    refine h.removed ht halways (opened_of_no_write hidle.no_write)
      (p.shared.removals_le_withTree t) (Machine.removals_withTree_of_removed hsome hget)
      (writing_of_no_write hidle.no_write) ?_
    rw [publications_snoc, htakes, ha, hsome, hget]
    rfl
  · have hsame : t.get (filePos cwd u f) = p.shared.store.tree.get (filePos cwd u f) := by
      rw [hget]
      split
      · rename_i hpos
        subst hpos
        exact (Option.not_isSome_iff_eq_none.1 fun hsome => hgone ⟨rfl, hsome⟩).symm
      · rfl
    have hkept : takesAway cwd depth (filePos cwd u f) (p, mv) = false := by
      rw [htakes, hsame]
      cases p.shared.store.tree.get (filePos cwd u f) <;> simp
    refine h.idle ht halways hidle (p.shared.removals_le_withTree t)
      (Machine.removals_withTree_of_kept fun e he => ?_) (fun e he => hsame.trans he) hpublished
      hkept
    rw [hsame, he]
    exact nofun

/-- A `write` to a file that is still there. -/
theorem Publishing.write_arrives (h : Publishing cwd depth u f steps p) {file : Descriptor}
    {data : Bytes} {next : Int → Handler}
    (ht : p.threads = before ++ ⟨k, .call (.write file data) next⟩ :: after)
    (halive : p.shared.Alive file)
    (hm' : m' = p.shared.withTree (p.shared.store.tree.write file.pos data))
    (halways : Pool.Always Stage ⟨m', before ++ ⟨k, next 0⟩ :: after⟩)
    (hpublished : published cwd depth u f (p, mv) =
      if (next 0).result? = some (.status success) then k.publishes u f else none)
    (hkept : takesAway cwd depth (filePos cwd u f) (p, mv) = false) :
    Publishing cwd depth u f (steps ++ [(p, mv)]) ⟨m', before ++ ⟨k, next 0⟩ :: after⟩ := by
  have hs : Stage k (.write file data) next := h.always.call ht
  obtain ⟨hno, hdata⟩ := hs.written u f
  have hget : m'.store.tree.get (filePos cwd u f) =
      if filePos cwd u f = file.pos then
        (p.shared.store.tree.get (filePos cwd u f)).map (Entry.overwritten data)
      else p.shared.store.tree.get (filePos cwd u f) := by
    rw [hm', Machine.tree_withTree, Tree.get_write]
  have hsame : m'.removals (filePos cwd u f) = p.shared.removals (filePos cwd u f) := by
    rw [hm']
    refine Machine.removals_withTree_of_kept fun e he => ?_
    rw [Tree.get_write, he]
    split
    · exact nofun
    · exact nofun
  have hgrow : ∀ q, p.shared.removals q ≤ m'.removals q := by
    rw [hm']
    exact p.shared.removals_le_withTree _
  by_cases hpos : filePos cwd u f = file.pos
  · rw [if_pos hpos] at hget
    have hwas : writing (filePos cwd u f) p.shared (.call (.write file data) next) = true :=
      decide_eq_true ⟨hpos.symm, halive⟩
    refine h.written ht halways (opened_of_no_write hno) hgrow hsame hwas (writing_of_no_write hno)
      data (fun hempty => ?_) (fun d hd => ?_) hkept
    · rw [hget, hempty]
      simp [Entry.overwritten, overwrite]
    · rw [hpublished] at hd
      split at hd
      · exact hdata ‹_› d hd
      · cases hd
  · rw [if_neg hpos] at hget
    refine h.idle ht halways ⟨hno, fun _ => ?_⟩ hgrow hsame (fun e he => hget.trans he) hpublished
      hkept
    -- a publication of these names writes to their file
    cases hp : k.publishes u f with
    | none => rfl
    | some d =>
      have hthread := h.opened ⟨k, .call (.write file data) next⟩ (by rw [ht]; simp) file data rfl
      exact absurd (hthread.2 (Option.isSome_of_eq_some hp)).symm hpos

end Call

theorem Publishing.call (hu : ValidName u) (hf : ValidName f)
    (h : Publishing cwd depth u f steps p)
    {before after : List (Thread Connection Call.Answer Outcome)} {k : Connection} {a : Call}
    {next : a.Answer → Handler} (ht : p.threads = before ++ ⟨k, .call a next⟩ :: after)
    {r : a.Answer × Machine} (heff : Effect cwd p.shared a r)
    (hopen : ∀ path, a = .openCreate path → (posix cwd).stat p.shared.store.tree path = none)
    (hwrite : ∀ file data, a = .write file data → p.shared.Alive file)
    (halways : Pool.Always Stage ⟨r.2, before ++ ⟨k, next r.1⟩ :: after⟩)
    (hpublished : published cwd depth u f (p, mv) =
      if (next r.1).result? = some (.status success) then k.publishes u f else none)
    (htakes : takesAway cwd depth (filePos cwd u f) (p, mv) =
      (a.removes && (p.shared.store.tree.get (filePos cwd u f)).isSome &&
        (r.2.store.tree.get (filePos cwd u f)).isNone)) :
    Publishing cwd depth u f (steps ++ [(p, mv)]) ⟨r.2, before ++ ⟨k, next r.1⟩ :: after⟩ := by
  have hs : Stage k a next := h.always.call ht
  cases heff with
  | @keeps a x m' ha htree hremovals =>
    have hkept : takesAway cwd depth (filePos cwd u f) (p, mv) = false := by
      rw [htakes, htree]
      cases p.shared.store.tree.get (filePos cwd u f) <;> simp
    exact h.idle ht halways (hs.idle ha u f x) (fun q => (congrFun hremovals q).ge)
      (congrFun hremovals _) (fun e he => by rw [htree, he]) hpublished hkept
  | @made path n p' t hleaf hcreate =>
    have hget : ∀ q e, p.shared.store.tree.get q = some e → t.get q = some e :=
      fun _ _ he => Tree.get_of_create hcreate he
    exact h.idle ht halways (hs.idle rfl u f _) (p.shared.removals_le_withTree t)
      (Machine.removals_withTree_of_kept fun e he => by rw [hget _ e he]; exact nofun)
      (hget _) hpublished htakes
  | @removed a x q t ha hp herase =>
    have hidle : Idle u f k (next x) := hs.idle (by cases a <;> first | rfl | cases ha) u f x
    exact h.erases ht ha hp herase halways hidle hpublished htakes
  | notOpened path =>
    exact h.idle ht halways (hs.idle_notOpened u f) (fun _ => Nat.le_refl _) rfl (fun _ he => he)
      hpublished htakes
  | reopened hleaf hget =>
    have hnone := hopen _ rfl
    rw [stat_of_leaf hleaf hget] at hnone
    cases hnone
  | created hleaf hcreate =>
    exact h.open_creates hu hf ht hleaf hcreate rfl halways hpublished htakes
  | notWritten file data =>
    exact h.idle ht halways (hs.idle_notWritten u f) (fun _ => Nat.le_refl _) rfl (fun _ he => he)
      hpublished htakes
  | lost data hdead => exact absurd (hwrite _ _ rfl) hdead
  | written data halive => exact h.write_arrives ht halive rfl halways hpublished htakes

/-- A move that makes no call. -/
theorem publications_of_returned_none
    (hkept : takesAway cwd depth (filePos cwd u f) (p, mv) = false)
    (hr : (server cwd depth).returned p mv = none) :
    publications cwd depth u f (steps ++ [(p, mv)]) = publications cwd depth u f steps := by
  have hnone : published cwd depth u f (p, mv) = none := by
    unfold published
    dsimp only
    rw [hr]
  rw [publications_snoc, if_neg (by simp [hkept]), hnone]
  exact List.append_nil _

/-- A new thread writes to nothing yet. -/
theorem Publishing.spawned (h : Publishing cwd depth u f steps p)
    {t : Thread Connection Call.Answer Outcome}
    (halways : Pool.Always Stage ⟨p.shared, p.threads ++ [t]⟩)
    (hno : ∀ a, t.rest.action? = some a → a.writes = false)
    (hpub : publications cwd depth u f (steps ++ [(p, mv)]) = publications cwd depth u f steps) :
    Publishing cwd depth u f (steps ++ [(p, mv)]) ⟨p.shared, p.threads ++ [t]⟩ := by
  have hwriters : writers (filePos cwd u f) ⟨p.shared, p.threads ++ [t]⟩ =
      writers (filePos cwd u f) p := by
    unfold writers
    rw [List.countP_append, List.countP_singleton, if_neg (by simp [writing_of_no_write hno])]
    rfl
  refine ⟨halways, fun t' ht' => ?_, hwriters ▸ h.writers_le, ?_, ?_⟩
  · rcases List.mem_append.1 ht' with ht' | ht'
    · exact h.opened t' ht'
    · obtain rfl := List.mem_singleton.1 ht'
      exact opened_of_no_write hno
  · rw [hwriters, hpub]
    exact h.writer
  · rw [hpub]
    exact h.content

/-- An undisputed move keeps the invariant, whatever its call does to the tree. -/
theorem Publishing.step (hu : ValidName u) (hf : ValidName f)
    (h : Publishing cwd depth u f steps p) (hC : OnPosix cwd mv) (hG : fresh cwd p mv = true) :
    Publishing cwd depth u f (steps ++ [(p, mv)]) ((server cwd depth).move p mv) := by
  have halways : ((server cwd depth).move p mv).Always Stage := always_move h.always mv
  have hm := (server cwd depth).moved p mv
  generalize hp' : (server cwd depth).move p mv = p' at halways hm
  cases hm with
  | spawned k =>
    exact h.spawned halways (staged_program depth k).ordinary.no_write
      (publications_of_returned_none (takesAway_of_not_called rfl) rfl)
  | idle i env hc hr =>
    have hpub : publications cwd depth u f (steps ++ [(p, .run i env)]) =
        publications cwd depth u f steps :=
      publications_of_returned_none (takesAway_of_not_called hc) hr
    exact ⟨halways, h.opened, h.writers_le, hpub ▸ h.writer, hpub ▸ h.content⟩
  | @called env before after k a next ht hc hr =>
    have htakes : takesAway cwd depth (filePos cwd u f) (p, .run before.length env) = _ :=
      takesAway_of_called hc
    rw [hp'] at htakes
    unfold fresh at hG
    rw [hc] at hG
    refine h.call hu hf ht (effect hC a p.shared) ?_ ?_ halways (published_of_returned hr) htakes
    · rintro path rfl
      exact Option.isNone_iff_eq_none.1 hG
    · rintro file data rfl
      exact of_decide_eq_true hG

end Invariant

/-- **A file is published once**, if every `open` finds no file at its path and every `write` finds
its file not removed: since the file was last removed, at most one PUBLISH has answered SUCCESS, and
the file holds its description. -/
theorem published_once {cwd : Pos} {depth : Nat} {u f : Bytes} (hu : ValidName u)
    (hf : ValidName f) {m : Machine} {p : ServerPool} {steps : List (ServerPool × ServerMove)}
    (h : Run ((server cwd depth).StepIn (OnPosix cwd)) (initialPool m) steps p)
    (hG : Undisputed cwd steps) :
    (publications cwd depth u f steps).length ≤ 1 ∧
      ∀ d ∈ publications cwd depth u f steps,
        p.shared.store.tree.get (filePos cwd u f) = some (.file d) := by
  have hpublishing : Publishing cwd depth u f steps p := by
    refine h.history_of_guard (I := Publishing cwd depth u f) ?_ ?_ hG
    · exact ⟨fun _ ht => absurd ht List.not_mem_nil, fun _ ht => absurd ht List.not_mem_nil,
        Nat.zero_le _, fun hw => absurd hw Nat.zero_ne_one, Or.inl rfl⟩
    · intro steps p mv p' hI hG hs
      exact hs.2 ▸ hI.step hu hf hs.1 hG
  rcases hpublishing.content with hnil | ⟨d, hd, hfile⟩
  · rw [hnil]
    exact ⟨Nat.zero_le _, fun d hd => absurd hd List.not_mem_nil⟩
  · rw [hd]
    refine ⟨Nat.le_refl _, fun d' hd' => ?_⟩
    rw [List.mem_singleton.1 hd']
    exact hfile

/-- The server with one connected user. -/
def connectedMachine : Machine :=
  aliceMachine.withConnected [⟨cstring "alice", cstring "4001", cstring "::1"⟩]

/-- A publication of the file `notes` of that user. -/
def publishNotes (fileDescription : Bytes) : Connection where
  operation := .change (.publish (.of (cstring "alice")) (.of (cstring "notes"))
    (.of fileDescription))
  address := none

/-- A publication, with another one that finds the file. -/
def publishedBefore : List ServerMove :=
  [.spawn (publishNotes (cstring "monday")), .run 0 posixConditions, .run 0 posixConditions,
    .run 0 posixConditions, .run 0 posixConditions, .run 0 posixConditions,
    .spawn (publishNotes (cstring "sun")), .run 1 posixConditions, .run 1 posixConditions,
    .run 1 posixConditions]

/-- Two publications that both look for the file before either opens it. -/
def publishedTwice : List ServerMove :=
  [.spawn (publishNotes (cstring "monday")), .spawn (publishNotes (cstring "sun")),
    .run 0 posixConditions, .run 0 posixConditions, .run 0 posixConditions, .run 1 posixConditions,
    .run 1 posixConditions, .run 1 posixConditions, .run 0 posixConditions, .run 0 posixConditions,
    .run 1 posixConditions, .run 1 posixConditions]

theorem notes_published_once :
    publications [] 8 (cstring "alice") (cstring "notes")
        ((server [] 8).schedule (initialPool connectedMachine) publishedBefore) =
          [cstring "monday"] ∧
      let p := publishedBefore.foldl (server [] 8).move (initialPool connectedMachine)
      p.shared.store.tree.get (filePos [] (cstring "alice") (cstring "notes")) =
        some (.file (cstring "monday")) := by
  have hC : ∀ m ∈ publishedBefore, OnPosix [] m := by
    simp [publishedBefore, OnPosix, posixConditions, changes_posix]
  have hrun := (server [] 8).run_schedule_in (initialPool connectedMachine) publishedBefore hC
  have hmonday : publications [] 8 (cstring "alice") (cstring "notes")
      ((server [] 8).schedule (initialPool connectedMachine) publishedBefore) =
        [cstring "monday"] := by decide
  have honce := published_once (u := cstring "alice") (f := cstring "notes") (by decide) (by decide)
    hrun (by decide)
  exact ⟨hmonday, honce.2 _ (hmonday ▸ List.mem_singleton_self _)⟩

/-- Both publications succeed, one over the other. -/
theorem published_twice :
    ¬ ∀ (steps : List (ServerPool × ServerMove)) (p : ServerPool),
      Run ((server [] 8).StepIn (OnPosix [])) (initialPool connectedMachine) steps p →
        (publications [] 8 (cstring "alice") (cstring "notes") steps).length ≤ 1 ∧
          ∀ d ∈ publications [] 8 (cstring "alice") (cstring "notes") steps,
            p.shared.store.tree.get (filePos [] (cstring "alice") (cstring "notes")) =
              some (.file d) := by
  intro h
  have hC : ∀ m ∈ publishedTwice, OnPosix [] m := by
    simp [publishedTwice, OnPosix, posixConditions, changes_posix]
  have honce := h _ _
    ((server [] 8).run_schedule_in (initialPool connectedMachine) publishedTwice hC)
  exact absurd honce.1 (by decide)

end DistributedSystems.Lab.Preemptive
