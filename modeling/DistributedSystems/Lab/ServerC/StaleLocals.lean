import DistributedSystems.Lab.ServerC.Server

/-!
# What the variables held before (`serverc/server.c`)

At the end of the stream `readLine` answers 0 and stores nothing, and the handlers only look for -1:
a field that has not come is what its buffer held before. Nor does a command without a branch in
`commandSelector` store to `output`. `Determined` says for which bytes and stores none of this
reaches the reply or the store. What `directory` held is with the calls, in `StaleThreads.lean`.
-/

namespace DistributedSystems.Lab

open Fs

/-! ## Reading an operation again -/

/-- The operation with its fields read into the given variables. -/
def Operation.reread (locals : Locals) (fields : Arrived) : Operation → Operation
  | .change (.register _) => .change (.register (fields.next locals.userName))
  | .change (.unregister _) => .change (.unregister (fields.next locals.userName))
  | .change (.connect _ _) =>
    .change (.connect (fields.next locals.userName) (fields.rest.next locals.userPort))
  | .change (.disconnect _) => .change (.disconnect (fields.next locals.userName))
  | .change (.publish _ _ _) =>
    .change (.publish (fields.next locals.userName) (fields.rest.next locals.fileName)
      (fields.rest.rest.next locals.fileDescription))
  | .change (.delete _ _) =>
    .change (.delete (fields.next locals.userName) (fields.rest.next locals.fileName))
  | .listUsers _ => .listUsers (fields.next locals.userName)
  | .listContent _ _ =>
    .listContent (fields.next locals.useropName) (fields.rest.next locals.userName)

/-- One comparison with the command, whichever variables the fields are read into. -/
theorem reread_ite {p : Prop} [Decidable p] {locals : Locals} {fields : Arrived}
    {op op' : Operation} {other other' : Option Operation} (h : op = op'.reread locals fields)
    (h' : other = other'.map (·.reread locals fields)) :
    (if p then some op else other) =
      (if p then some op' else other').map (·.reread locals fields) := by
  by_cases hp : p
  · rw [if_pos hp, if_pos hp, h]
    rfl
  · rw [if_neg hp, if_neg hp, h']

/-- What is read after a command that has come. -/
theorem operationOf_of_comes {a : Arrived} (h : a.Comes) (locals : Locals) :
    operationOf locals a = (operationOf .zeros a).map (·.reread locals a.rest) := by
  unfold operationOf
  rw [Arrived.next_of_comes h locals.message Locals.zeros.message]
  dsimp only
  refine reread_ite (by rfl) ?_
  refine reread_ite (by rfl) ?_
  refine reread_ite (by rfl) ?_
  refine reread_ite (by rfl) ?_
  refine reread_ite (by rfl) ?_
  refine reread_ite (by rfl) ?_
  refine reread_ite (by rfl) ?_
  refine reread_ite (by rfl) ?_
  rfl

theorem operationOf_zeros_of_not_comes {a : Arrived} (h : ¬ a.Comes) :
    operationOf .zeros a = none := by
  have hcommand : (a.next Locals.zeros.message).text = [] := by
    rw [Arrived.next_of_not_comes h]
    exact Buffer.text_zeros _
  unfold operationOf
  rw [hcommand]
  rfl

/-! ## When the variables do not matter -/

/-- The directory can be opened. -/
def Opens (c : SysCalls) (t : Tree) (path : Bytes) : Prop := (c.opendir t path).isSome

instance (c : SysCalls) (t : Tree) (path : Bytes) : Decidable (Opens c t path) :=
  inferInstanceAs (Decidable (_ = true))

/-- The fields that an operation goes by have come. The user is looked up in `./Users` and the file
in the directory of the user, so a name matters once its directory opens. -/
def Operation.Determined (c : SysCalls) (address : Option Bytes) (s : Store) (fields : Arrived) :
    Operation → Prop
  | .change (.register _) => Opens c s.tree usersDirectory → fields.Comes
  | .change (.unregister _) => Opens c s.tree usersDirectory → fields.Comes
  | .change (.connect userName _) =>
    (Opens c s.tree usersDirectory → fields.Comes) ∧
      -- the port goes into a new record
      (isusrRegistered c s.tree userName.text = 1 ∧ userName.text ∉ userNames s.connected ∧
        address ≠ none → fields.rest.Comes)
  | .change (.disconnect _) => Opens c s.tree usersDirectory → fields.Comes
  | .change (.publish userName _ _) =>
    (Opens c s.tree usersDirectory → fields.Comes) ∧
      -- of a description that has not come, `write` takes 0 bytes
      (isusrRegistered c s.tree userName.text = 1 ∧ userName.text ∈ userNames s.connected ∧
        Opens c s.tree (userDirPath userName.text) → fields.rest.Comes)
  | .change (.delete userName _) =>
    ((∃ b : Buffer maxSize, Opens c s.tree (userDirPath b.text)) → fields.Comes) ∧
      (Opens c s.tree (userDirPath userName.text) → fields.rest.Comes)
  | .listUsers _ => True
  | .listContent _ _ =>
    fields.rest.Comes ∨
      (¬ Opens c s.tree usersDirectory ∧ ∀ b b' : Buffer maxSize,
        (c.opendir s.tree (userDirPath b.text)).map fileNames =
          (c.opendir s.tree (userDirPath b'.text)).map fileNames)

/-- The bytes name an operation and bring what it goes by. An empty buffer stands for each field
that has not come, so that a command which has not come is no command. -/
def Determined (c : SysCalls) (address : Option Bytes) (s : Store) (a : Arrived) : Prop :=
  ∃ op, operationOf .zeros a = some op ∧ op.Determined c address s a.rest

/-! ## The lookups of two names

`readdir` yields no empty name, and it yields the dot name in every directory. -/

section Lookups

variable {cwd : Pos} {c : SysCalls} (hc : c ≤ posix cwd) {t : Tree} {path : Bytes}

include hc

theorem listing_of_opendir {entries : List Bytes} (h : c.opendir t path = some entries) :
    ∃ p, entries = listing t p := by
  obtain ⟨p, -, -, hlisting⟩ := posix.opendir_eq_some_iff.1 (SysCalls.opendir_of_le hc h)
  exact ⟨p, hlisting.symm⟩

theorem searchDirectory_nil (h : Opens c t path) : searchDirectory c t path [] = 0 := by
  obtain ⟨entries, ho⟩ := Option.isSome_iff_exists.1 h
  obtain ⟨p, rfl⟩ := listing_of_opendir hc ho
  rw [searchDirectory_of_opendir ho, if_neg]
  intro hmem
  rcases listing_names [] hmem with hnil | hnil | hnil
  · cases hnil
  · cases hnil
  · exact hnil.1 rfl

theorem searchDirectory_dot (h : Opens c t path) : searchDirectory c t path dot = 1 := by
  obtain ⟨entries, ho⟩ := Option.isSome_iff_exists.1 h
  obtain ⟨p, rfl⟩ := listing_of_opendir hc ho
  rw [searchDirectory_of_opendir ho, if_pos (mem_listing_iff.2 (Or.inl rfl))]

omit hc in
theorem searchDirectory_of_not_opens (h : ¬ Opens c t path) (name : Bytes) :
    searchDirectory c t path name = -1 :=
  searchDirectory_of_none (Option.not_isSome_iff_eq_none.1 h)

/-- The directory of users is there if it opens. -/
theorem get_usersPos_of_opens (h : Opens c t usersDirectory) :
    t.get (usersPos cwd) = some .dir := by
  obtain ⟨entries, ho⟩ := Option.isSome_iff_exists.1 h
  have hp := SysCalls.opendir_of_le hc ho
  rw [opendir_usersDirectory] at hp
  by_contra hd
  rw [if_neg hd] at hp
  cases hp

/-- The path of no user is that of `./Users`, which is there. -/
theorem mkdir_userPath_nil (h : Opens c t usersDirectory) : c.mkdir t (userPath []) = none := by
  cases hm : c.mkdir t (userPath []) with
  | none => rfl
  | some t' =>
    have hcreated := create_of_mkdir_userPath List.not_mem_nil (get_usersPos_of_opens hc h)
      (SysCalls.mkdir_of_le hc hm)
    exact absurd rfl hcreated.1.1

/-- A path that ends in a slash is none of a file. -/
theorem openCreate_userDirPath (u : Bytes) : c.openCreate t (userDirPath u) = none := by
  cases ho : c.openCreate t (userDirPath u) with
  | none => rfl
  | some r =>
    obtain ⟨t', fd⟩ := r
    obtain ⟨p, n, hleaf, hfd, hentry⟩ :=
      posix.openCreate_eq_some_iff.1 (SysCalls.openCreate_of_le hc ho)
    obtain ⟨ds, hds, -⟩ := leaf_eq_some_iff.1 hleaf
    have hcs : components (userDirPath u) = (dot :: users :: components u) ++ [[]] :=
      components_userDirPath u
    obtain ⟨-, rfl⟩ := List.append_singleton_inj.1 (hcs.symm.trans hds)
    rcases hentry with ⟨old, hold, -⟩ | hcreate
    · rw [hfd] at hold
      exact absurd rfl (Tree.validName_of_get hold).1
    · exact absurd rfl (Tree.create_isSome_iff.1 (Option.isSome_of_eq_some hcreate)).2.2.1

end Lookups

/-! ## Replies that differ -/

theorem htonl_inj {m n : Int} (hm : 0 ≤ m ∧ m ≤ 4) (hn : 0 ≤ n ∧ n ≤ 4) (h : htonl m = htonl n) :
    m = n := by
  have hlast := congrArg (fun reply => (reply[3]?).map UInt8.toNat) h
  simp only [htonl, List.getElem?_cons_succ, List.getElem?_cons_zero, Option.map_some,
    Option.some.injEq, UInt8.toNat_ofNat'] at hlast
  omega

/-- An operation that replies with its status tells the statuses apart. -/
theorem run_change_inj {c : SysCalls} {allocated : Bool} {address : Option Bytes} {s : Store}
    {r r' : Request} :
    (Operation.change r).run c allocated address s =
        (Operation.change r').run c allocated address s ↔
      serve c address r s = serve c address r' s := by
  constructor
  · intro h
    obtain ⟨hstatus, hstore⟩ := Prod.mk.inj h
    exact Prod.ext (htonl_inj (serve_status c s address r) (serve_status c s address r') hstatus)
      hstore
  · intro h
    simp only [Operation.run, h]

theorem ne_of_status {r r' : Int × Store} {k : Int} (h : r.1 = k) (h' : r'.1 ≠ k) : r ≠ r' := by
  rintro rfl
  exact h' h

theorem plain_line_inj {m n r r' : Bytes} (hm : nul ∉ m) (hn : nul ∉ n)
    (h : m ++ nul :: r = n ++ nul :: r') : m = n ∧ r = r' := by
  induction m generalizing n with
  | nil =>
    cases n with
    | nil => exact ⟨rfl, (List.cons.inj h).2⟩
    | cons ch n => exact absurd ((List.cons.inj h).1 ▸ List.mem_cons_self) hn
  | cons ch m ih =>
    cases n with
    | nil => exact absurd ((List.cons.inj h).1 ▸ List.mem_cons_self) hm
    | cons ch' n =>
      obtain ⟨rfl, htail⟩ := List.cons.inj h
      obtain ⟨rfl, hr⟩ := ih (fun h => hm (List.mem_cons_of_mem _ h))
        (fun h => hn (List.mem_cons_of_mem _ h)) htail
      exact ⟨rfl, hr⟩

/-- The lines of a listing can be told apart. -/
theorem sendField_inj {names names' : List Bytes} (h : ∀ n ∈ names, nul ∉ n)
    (h' : ∀ n ∈ names', nul ∉ n) (heq : names.flatMap sendField = names'.flatMap sendField) :
    names = names' := by
  induction names generalizing names' with
  | nil =>
    cases names' with
    | nil => rfl
    | cons n names' => simp [sendField, writeLine] at heq
  | cons n names ih =>
    cases names' with
    | nil => simp [sendField, writeLine] at heq
    | cons n' names' =>
      simp only [List.flatMap_cons, sendField, writeLine, List.append_assoc,
        List.singleton_append] at heq
      obtain ⟨rfl, htail⟩ := plain_line_inj (h n List.mem_cons_self) (h' n' List.mem_cons_self) heq
      obtain ⟨-, hrest⟩ := List.cons.inj htail
      rw [ih (fun m hm => h m (List.mem_cons_of_mem _ hm))
        (fun m hm => h' m (List.mem_cons_of_mem _ hm)) hrest]

section Handlers

variable {cwd : Pos} {c : SysCalls} (hc : c ≤ posix cwd) {s : Store}

include hc

/-! ## Users

The empty name and the dot name are the two contents of a buffer that tell the replies apart. -/

/-- A field for the name of a user matters as soon as `./Users` opens. -/
theorem userName_iff {α : Type} (a : Arrived) {f : Line → α}
    (hclosed : (∀ u, isusrRegistered c s.tree u = -1) → ∀ x y, f x = f y)
    (hopen : Opens c s.tree usersDirectory → isusrRegistered c s.tree [] = 0 →
      isusrRegistered c s.tree dot = 1 → f ⟨[], 0⟩ ≠ f ⟨dot, 0⟩) :
    (∀ b b' : Buffer maxSize, f (a.next b) = f (a.next b')) ↔
      (Opens c s.tree usersDirectory → a.Comes) := by
  constructor
  · intro h ho
    by_contra ha
    obtain ⟨b, hb⟩ : ∃ b : Buffer maxSize, b.text = dot :=
      Buffer.exists_text (by decide) (by decide)
    have heq := h (.zeros _) b
    rw [Arrived.next_of_not_comes ha, Arrived.next_of_not_comes ha, Buffer.text_zeros, hb] at heq
    exact hopen ho (searchDirectory_nil hc ho) (searchDirectory_dot hc ho) heq
  · intro h b b'
    by_cases ha : a.Comes
    · rw [Arrived.next_of_comes ha b b']
    · exact hclosed (searchDirectory_of_not_opens fun ho => ha (h ho)) _ _

theorem registerUser.act_iff (a : Arrived) :
    (∀ b b' : Buffer maxSize,
        registerUser.act c (a.next b).text s = registerUser.act c (a.next b').text s) ↔
      (Opens c s.tree usersDirectory → a.Comes) := by
  refine userName_iff hc a (f := fun u => registerUser.act c u.text s) ?_ ?_
  · intro h x y
    simp [registerUser.act, h]
  · intro ho h0 h1
    simp [registerUser.act, h0, h1, mkdir_userPath_nil hc ho]

theorem unregisterUser.act_iff (a : Arrived) :
    (∀ b b' : Buffer maxSize,
        unregisterUser.act c (a.next b).text s = unregisterUser.act c (a.next b').text s) ↔
      (Opens c s.tree usersDirectory → a.Comes) := by
  refine userName_iff hc a (f := fun u => unregisterUser.act c u.text s) ?_ ?_
  · intro h x y
    simp [unregisterUser.act, h]
  · intro _ h0 h1
    apply ne_of_status (k := userNotRegistered)
    · simp [unregisterUser.act, h0]
    · simp only [unregisterUser.act, if_pos h1]
      split <;> simp

theorem disconnectUser.act_iff (a : Arrived) :
    (∀ b b' : Buffer maxSize,
        disconnectUser.act c (a.next b).text s = disconnectUser.act c (a.next b').text s) ↔
      (Opens c s.tree usersDirectory → a.Comes) := by
  refine userName_iff hc a (f := fun u => disconnectUser.act c u.text s) ?_ ?_
  · intro h x y
    simp [disconnectUser.act, h]
  · intro _ h0 h1
    apply ne_of_status (k := userNotRegistered)
    · simp [disconnectUser.act, h0]
    · simp only [disconnectUser.act, if_pos h1]
      split <;> simp

omit hc in
/-- The port of a CONNECT shows in a new record only. -/
theorem connectUser.act_eq_iff {address : Option Bytes} {u p p' : Bytes} :
    connectUser.act c address u p s = connectUser.act c address u p' s ↔
      p = p' ∨ ¬ (isusrRegistered c s.tree u = 1 ∧ u ∉ userNames s.connected ∧ address ≠ none) := by
  by_cases h1 : isusrRegistered c s.tree u = 1
  · by_cases hu : u ∈ userNames s.connected
    · simp [connectUser.act, h1, hu]
    · cases address with
      | none => simp [connectUser.act, h1]
      | some a => simp [connectUser.act, h1, hu, addElement]
  · simp [connectUser.act, h1]

theorem connectUser.act_userName_iff (address : Option Bytes) (a : Arrived) (p : Bytes) :
    (∀ b b' : Buffer maxSize,
        connectUser.act c address (a.next b).text p s =
          connectUser.act c address (a.next b').text p s) ↔
      (Opens c s.tree usersDirectory → a.Comes) := by
  refine userName_iff hc a (f := fun u => connectUser.act c address u.text p s) ?_ ?_
  · intro h x y
    simp [connectUser.act, h]
  · intro _ h0 h1
    apply ne_of_status (k := userNotRegistered)
    · simp [connectUser.act, h0]
    · simp only [connectUser.act, if_pos h1]
      split
      · simp
      · cases address <;> simp

theorem connectUser.act_iff (address : Option Bytes) (a : Arrived) :
    (∀ locals locals' : Locals,
        connectUser.act c address (a.next locals.userName).text
            (a.rest.next locals.userPort).text s =
          connectUser.act c address (a.next locals'.userName).text
            (a.rest.next locals'.userPort).text s) ↔
      (Opens c s.tree usersDirectory → a.Comes) ∧
        (isusrRegistered c s.tree (a.next Locals.zeros.userName).text = 1 ∧
            (a.next Locals.zeros.userName).text ∉ userNames s.connected ∧ address ≠ none →
          a.rest.Comes) := by
  have hname := connectUser.act_userName_iff hc (s := s) address a
  constructor
  · intro h
    refine ⟨(hname (a.rest.next Locals.zeros.userPort).text).1 fun b b' =>
      h { Locals.zeros with userName := b } { Locals.zeros with userName := b' }, fun hnew => ?_⟩
    by_contra ha
    obtain ⟨b, hb⟩ : ∃ b : Buffer portSize, b.text = dot :=
      Buffer.exists_text (by decide) (by decide)
    have heq := h .zeros { Locals.zeros with userPort := b }
    rw [connectUser.act_eq_iff, Arrived.next_of_not_comes ha, Arrived.next_of_not_comes ha,
      hb] at heq
    rcases heq with hport | hold
    · exact absurd ((Buffer.text_zeros _).symm.trans hport) (by decide)
    · exact hold hnew
  · rintro ⟨hcomes, hport⟩ locals locals'
    rw [(hname _).2 hcomes locals.userName Locals.zeros.userName,
      (hname _).2 hcomes locals'.userName Locals.zeros.userName, connectUser.act_eq_iff]
    by_cases ha : a.rest.Comes
    · exact Or.inl (by rw [Arrived.next_of_comes ha locals.userPort locals'.userPort])
    · exact Or.inr fun hnew => ha (hport hnew)

/-! ## Files -/

omit hc in
/-- A PUBLISH that a check refuses before it comes to the file. -/
theorem publishFile.act_refused {u f f' d d' : Line}
    (h : ¬ (isusrRegistered c s.tree u.text = 1 ∧ u.text ∈ userNames s.connected ∧
      Opens c s.tree (userDirPath u.text))) :
    publishFile.act c u f d s = publishFile.act c u f' d' s := by
  by_cases h1 : isusrRegistered c s.tree u.text = 1
  · by_cases hu : u.text ∈ userNames s.connected
    · have hexists : ∀ name, fileExists c s.tree name (userDirPath u.text) = -1 :=
        searchDirectory_of_not_opens fun ho => h ⟨h1, hu, ho⟩
      simp [publishFile.act, h1, hu, hexists]
    · simp [publishFile.act, h1, hu]
  · simp [publishFile.act, h1]

theorem publishFile.act_differs {u d d' : Line} (h1 : isusrRegistered c s.tree u.text = 1)
    (hu : u.text ∈ userNames s.connected) (ho : Opens c s.tree (userDirPath u.text)) :
    publishFile.act c u ⟨[], 0⟩ d s ≠ publishFile.act c u ⟨dot, 0⟩ d' s := by
  have hnil : fileExists c s.tree [] (userDirPath u.text) = 0 := searchDirectory_nil hc ho
  have hdot : fileExists c s.tree dot (userDirPath u.text) = 1 := searchDirectory_dot hc ho
  have hopen : c.openCreate s.tree (strncat (userDirPath u.text) [] 0) = none := by
    rw [strncat, List.take_nil, List.append_nil, openCreate_userDirPath hc]
  simp [publishFile.act, h1, hu, hnil, hdot, hopen]

theorem publishFile.act_userName_iff (a : Arrived) (f d : Line) :
    (∀ b b' : Buffer maxSize,
        publishFile.act c (a.next b) f d s = publishFile.act c (a.next b') f d s) ↔
      (Opens c s.tree usersDirectory → a.Comes) := by
  refine userName_iff hc a (f := fun u => publishFile.act c u f d s) ?_ ?_
  · intro h x y
    simp [publishFile.act, h]
  · intro _ h0 h1
    apply ne_of_status (k := userNotRegistered)
    · simp [publishFile.act, h0]
    · simp only [publishFile.act, if_pos h1]
      split_ifs <;> (try split) <;> (try split) <;> simp

theorem publishFile.act_iff (a : Arrived) :
    (∀ locals locals' : Locals,
        publishFile.act c (a.next locals.userName) (a.rest.next locals.fileName)
            (a.rest.rest.next locals.fileDescription) s =
          publishFile.act c (a.next locals'.userName) (a.rest.next locals'.fileName)
            (a.rest.rest.next locals'.fileDescription) s) ↔
      (Opens c s.tree usersDirectory → a.Comes) ∧
        (isusrRegistered c s.tree (a.next Locals.zeros.userName).text = 1 ∧
            (a.next Locals.zeros.userName).text ∈ userNames s.connected ∧
            Opens c s.tree (userDirPath (a.next Locals.zeros.userName).text) → a.rest.Comes) := by
  have hname := publishFile.act_userName_iff hc (s := s) a
  constructor
  · intro h
    refine ⟨(hname (a.rest.next Locals.zeros.fileName)
      (a.rest.rest.next Locals.zeros.fileDescription)).1 fun b b' =>
        h { Locals.zeros with userName := b } { Locals.zeros with userName := b' }, ?_⟩
    rintro ⟨h1, hu, ho⟩
    by_contra ha
    obtain ⟨b, hb⟩ : ∃ b : Buffer maxSize, b.text = dot :=
      Buffer.exists_text (by decide) (by decide)
    have heq := h .zeros { Locals.zeros with fileName := b }
    rw [Arrived.next_of_not_comes ha, Arrived.next_of_not_comes ha, hb] at heq
    exact publishFile.act_differs hc h1 hu ho ((Buffer.text_zeros maxSize) ▸ heq)
  · rintro ⟨hcomes, hfile⟩ locals locals'
    rw [(hname _ _).2 hcomes locals.userName Locals.zeros.userName,
      (hname _ _).2 hcomes locals'.userName Locals.zeros.userName]
    by_cases ha : a.rest.Comes
    · rw [Arrived.next_of_comes ha locals.fileName locals'.fileName]
      -- of the description only the bytes that have come are used
      have hdescription : ∀ b b' : Buffer maxSize,
          (a.rest.rest.next b).text.take (a.rest.rest.next b).length =
            (a.rest.rest.next b').text.take (a.rest.rest.next b').length := by
        intro b b'
        by_cases hd : a.rest.rest.Comes
        · rw [Arrived.next_of_comes hd b b']
        · rw [Arrived.next_of_not_comes hd, Arrived.next_of_not_comes hd]
          rfl
      unfold publishFile.act
      rw [hdescription locals.fileDescription locals'.fileDescription]
    · exact publishFile.act_refused fun hreached => ha (hfile hreached)

omit hc in
theorem deleteFile.act_refused {u f : Line} (h : ¬ Opens c s.tree (userDirPath u.text)) :
    deleteFile.act c u f s = (otherError4, s) := by
  have hexists : fileExists c s.tree f.text (userDirPath u.text) = -1 :=
    searchDirectory_of_not_opens h _
  simp [deleteFile.act, hexists]

theorem deleteFile.act_differs {u : Line} (ho : Opens c s.tree (userDirPath u.text)) :
    deleteFile.act c u ⟨[], 0⟩ s ≠ deleteFile.act c u ⟨dot, 0⟩ s := by
  have hnil : fileExists c s.tree [] (userDirPath u.text) = 0 := searchDirectory_nil hc ho
  have hdot : fileExists c s.tree dot (userDirPath u.text) = 1 := searchDirectory_dot hc ho
  apply ne_of_status (k := fileNotPublished)
  · simp [deleteFile.act, hnil]
  · simp only [deleteFile.act, if_pos hdot]
    split <;> simp

theorem deleteFile.act_iff (a : Arrived) :
    (∀ locals locals' : Locals,
        deleteFile.act c (a.next locals.userName) (a.rest.next locals.fileName) s =
          deleteFile.act c (a.next locals'.userName) (a.rest.next locals'.fileName) s) ↔
      ((∃ b : Buffer maxSize, Opens c s.tree (userDirPath b.text)) → a.Comes) ∧
        (Opens c s.tree (userDirPath (a.next Locals.zeros.userName).text) → a.rest.Comes) := by
  constructor
  · intro h
    obtain ⟨b, hb⟩ : ∃ b : Buffer maxSize, b.text = dot :=
      Buffer.exists_text (by decide) (by decide)
    -- whichever directory opens, the file name that has not come is looked up in it
    have hfile : ∀ b' : Buffer maxSize, Opens c s.tree (userDirPath (a.next b').text) →
        a.rest.Comes := by
      intro b' ho
      by_contra ha
      have heq := h { Locals.zeros with userName := b' }
        { Locals.zeros with userName := b', fileName := b }
      rw [Arrived.next_of_not_comes ha, Arrived.next_of_not_comes ha, hb] at heq
      exact deleteFile.act_differs hc ho ((Buffer.text_zeros maxSize) ▸ heq)
    refine ⟨?_, hfile _⟩
    rintro ⟨b', ho⟩
    by_contra ha
    rw [show b'.text = (a.next b').text by rw [Arrived.next_of_not_comes ha]] at ho
    exact Arrived.not_comes_rest ha (hfile b' ho)
  · rintro ⟨hcomes, hfile⟩ locals locals'
    by_cases ha : a.Comes
    · rw [Arrived.next_of_comes ha locals.userName Locals.zeros.userName,
        Arrived.next_of_comes ha locals'.userName Locals.zeros.userName]
      by_cases hrest : a.rest.Comes
      · rw [Arrived.next_of_comes hrest locals.fileName locals'.fileName]
      · rw [deleteFile.act_refused fun ho => hrest (hfile ho),
          deleteFile.act_refused fun ho => hrest (hfile ho)]
    · have hclosed : ∀ b : Buffer maxSize, ¬ Opens c s.tree (userDirPath (a.next b).text) := by
        intro b ho
        rw [Arrived.next_of_not_comes ha] at ho
        exact ha (hcomes ⟨b, ho⟩)
      rw [deleteFile.act_refused (hclosed _), deleteFile.act_refused (hclosed _)]

/-! ## Listings -/

/-- What a directory lists can be read off the lines that are sent. -/
theorem fileNames_inj {path path' : Bytes} {entries entries' : List Bytes} {t : Tree}
    (h : c.opendir t path = some entries) (h' : c.opendir t path' = some entries')
    (heq : (fileNames entries).flatMap sendField = (fileNames entries').flatMap sendField) :
    fileNames entries = fileNames entries' := by
  have hplain : ∀ {path entries}, c.opendir t path = some entries →
      ∀ n ∈ fileNames entries, nul ∉ n := by
    intro path entries ho n hn
    obtain ⟨p, rfl⟩ := listing_of_opendir hc ho
    obtain ⟨hmem, hdots⟩ := List.mem_filter.1 hn
    rcases listing_names n hmem with rfl | rfl | hvalid
    · decide
    · decide
    · exact hvalid.2.2.1
  exact sendField_inj (hplain h) (hplain h') heq

/-- Of two users that are not found missing, the replies are those of their directories. -/
theorem listContent.act_eq_iff {u u' : Bytes} (hu : isusrRegistered c s.tree u ≠ 0)
    (hu' : isusrRegistered c s.tree u' ≠ 0) :
    listContent.act c u s = listContent.act c u' s ↔
      (c.opendir s.tree (userDirPath u)).map fileNames =
        (c.opendir s.tree (userDirPath u')).map fileNames := by
  unfold listContent.act
  rw [if_pos hu, if_pos hu']
  cases ho : c.opendir s.tree (userDirPath u) with
  | none =>
    cases ho' : c.opendir s.tree (userDirPath u') with
    | none => simp
    | some entries' => simp [htonl]
  | some entries =>
    cases ho' : c.opendir s.tree (userDirPath u') with
    | none => simp [htonl]
    | some entries' =>
      simp only [Option.map_some, Option.some.injEq]
      constructor
      · intro heq
        rw [List.append_assoc, List.append_assoc, List.append_cancel_left_eq] at heq
        exact fileNames_inj hc ho ho' (List.append_inj heq rfl).2
      · intro heq
        rw [heq]

theorem listContent.act_differs (h : Opens c s.tree usersDirectory) :
    listContent.act c [] s ≠ listContent.act c dot s := by
  have hnil : isusrRegistered c s.tree [] = 0 := searchDirectory_nil hc h
  have hdot : isusrRegistered c s.tree dot = 1 := searchDirectory_dot hc h
  intro heq
  have hlast := congrArg (fun reply => reply[3]?) heq
  simp only [listContent.act, hnil, hdot] at hlast
  cases ho : c.opendir s.tree (userDirPath dot) with
  | none => simp [ho, htonl] at hlast
  | some entries => simp [ho, htonl] at hlast

theorem listContent.act_iff (a : Arrived) :
    (∀ b b' : Buffer maxSize,
        listContent.act c (a.next b).text s = listContent.act c (a.next b').text s) ↔
      a.Comes ∨
        (¬ Opens c s.tree usersDirectory ∧ ∀ b b' : Buffer maxSize,
          (c.opendir s.tree (userDirPath b.text)).map fileNames =
            (c.opendir s.tree (userDirPath b'.text)).map fileNames) := by
  by_cases ha : a.Comes
  · refine iff_of_true (fun b b' => ?_) (Or.inl ha)
    rw [Arrived.next_of_comes ha b b']
  simp only [Arrived.next_of_not_comes ha, ha, false_or]
  by_cases ho : Opens c s.tree usersDirectory
  · refine iff_of_false (fun h => ?_) (fun h => h.1 ho)
    obtain ⟨b, hb⟩ : ∃ b : Buffer maxSize, b.text = dot :=
      Buffer.exists_text (by decide) (by decide)
    have heq := h (.zeros _) b
    rw [Buffer.text_zeros, hb] at heq
    exact listContent.act_differs hc ho heq
  · have hregistered : ∀ u, isusrRegistered c s.tree u ≠ 0 := by
      intro u
      rw [isusrRegistered, searchDirectory_of_not_opens ho]
      decide
    simp only [ho, not_false_iff, true_and]
    exact forall_congr' fun b => forall_congr' fun b' =>
      listContent.act_eq_iff hc (hregistered _) (hregistered _)

end Handlers

/-! ## From the stream to the outcome -/

/-- What one buffer does not change, no variable changes. -/
theorem forall_locals_iff {α β : Type} {field : Locals → β}
    (hfield : ∀ b, ∃ locals, field locals = b) {f : β → α} :
    (∀ locals locals', f (field locals) = f (field locals')) ↔ ∀ b b', f b = f b' := by
  constructor
  · intro h b b'
    obtain ⟨locals, rfl⟩ := hfield b
    obtain ⟨locals', rfl⟩ := hfield b'
    exact h locals locals'
  · intro h locals locals'
    exact h _ _

section Outcome

variable {cwd : Pos} {c : SysCalls} (hc : c ≤ posix cwd) (allocated : Bool)
  (address : Option Bytes) (s : Store)

include hc

/-- Whether the outcome of an operation hangs on what its fields are read into. -/
theorem Operation.independent_iff (fields : Arrived) (op : Operation) :
    (∀ locals locals', (op.reread locals fields).run c allocated address s =
        (op.reread locals' fields).run c allocated address s) ↔
      (op.reread .zeros fields).Determined c address s fields := by
  have huser : ∀ b : Buffer maxSize, ∃ locals : Locals, locals.userName = b := fun b =>
    ⟨{ Locals.zeros with userName := b }, rfl⟩
  cases op with
  | change r =>
    cases r with
    | register u =>
      simp only [Operation.reread, run_change_inj, serve, Operation.Determined]
      rw [← registerUser.act_iff hc fields]
      exact forall_locals_iff huser (f := fun b => registerUser.act c (fields.next b).text s)
    | unregister u =>
      simp only [Operation.reread, run_change_inj, serve, Operation.Determined]
      rw [← unregisterUser.act_iff hc fields]
      exact forall_locals_iff huser (f := fun b => unregisterUser.act c (fields.next b).text s)
    | connect u p =>
      simp only [Operation.reread, run_change_inj, serve, Operation.Determined]
      exact connectUser.act_iff hc address fields
    | disconnect u =>
      simp only [Operation.reread, run_change_inj, serve, Operation.Determined]
      rw [← disconnectUser.act_iff hc fields]
      exact forall_locals_iff huser (f := fun b => disconnectUser.act c (fields.next b).text s)
    | publish u f d =>
      simp only [Operation.reread, run_change_inj, serve, Operation.Determined]
      exact publishFile.act_iff hc fields
    | delete u f =>
      simp only [Operation.reread, run_change_inj, serve, Operation.Determined]
      exact deleteFile.act_iff hc fields
  | listUsers u => exact iff_of_true (fun _ _ => rfl) trivial
  | listContent v u =>
    simp only [Operation.reread, Operation.run, Operation.Determined, Prod.mk.injEq, and_true]
    rw [← listContent.act_iff hc fields.rest]
    exact forall_locals_iff huser (f := fun b => listContent.act c (fields.rest.next b).text s)

theorem independent_arrived_iff (a : Arrived) :
    (∀ locals locals', processRequest c allocated locals ⟨received a.bytes, address⟩ s =
        processRequest c allocated locals' ⟨received a.bytes, address⟩ s) ↔
      Determined c address s a := by
  simp only [processRequest_arrived]
  cases hop : operationOf .zeros a with
  | none =>
    -- the command has no branch, and nothing has stored to `output`
    refine iff_of_false (fun h => ?_) fun ⟨op, hop', _⟩ => by rw [hop] at hop'; cases hop'
    have hop' : operationOf { Locals.zeros with output := 1 } a = none := hop
    have heq := h .zeros { Locals.zeros with output := 1 }
    simp only [hop, hop', Prod.mk.injEq, and_true] at heq
    exact absurd heq (by decide)
  | some op =>
    have ha : a.Comes := by
      by_contra ha
      rw [operationOf_zeros_of_not_comes ha] at hop
      cases hop
    have hreread : ∀ locals, operationOf locals a = some (op.reread locals a.rest) := by
      intro locals
      rw [operationOf_of_comes ha, hop]
      rfl
    have hzeros : op.reread .zeros a.rest = op :=
      Option.some.inj ((hreread .zeros).symm.trans hop)
    have hiff := op.independent_iff hc allocated address s a.rest
    rw [hzeros] at hiff
    simp only [hreread]
    rw [hiff]
    simp only [Determined, hop, Option.some.injEq, exists_eq_left']

/-- The reply and the store depend on the bytes and the store alone exactly when the bytes name an
operation and bring the fields that it goes by. -/
theorem reply_independent_iff (request : Bytes) :
    (∀ locals locals', processRequest c allocated locals ⟨received request, address⟩ s =
        processRequest c allocated locals' ⟨received request, address⟩ s) ↔
      Determined c address s (Arrived.of request) := by
  have h := independent_arrived_iff hc allocated address s (Arrived.of request)
  rwa [Arrived.bytes_of] at h

end Outcome

/-- A store in which nothing has happened yet. -/
def startStore : Store := initP2pService (posix []) .empty

/-- A REGISTER that is cut after the command registers the name that `user_name` happened to
hold. -/
example :
    processRequest (posix []) true .zeros ⟨received (cstring "REGISTER\x00"), none⟩ startStore ≠
      processRequest (posix []) true { Locals.zeros with userName := (Buffer.zeros _).store 0 97 }
        ⟨received (cstring "REGISTER\x00"), none⟩ startStore := by
  intro h
  exact absurd (congrArg Prod.fst h) (by decide)

end DistributedSystems.Lab
