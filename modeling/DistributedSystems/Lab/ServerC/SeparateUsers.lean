import DistributedSystems.Lab.ServerC.UserViews
import DistributedSystems.Support.Locality

/-!
# Concurrent requests about different users

All requests but LIST_USERS are about one user: the calling one, or the one whose content
LIST_CONTENT lists. With plain names their calls stay in the part of that user
(`Connection.about`). So the server, which takes no lock, serves requests about different users as
if one after the other (`separateUsers_serial`), however the calls of their threads are interleaved
and whichever of them fail.
-/

namespace DistributedSystems.Lab.Preemptive

open Fs Support

/-- The user that a request is about. -/
def Connection.user (k : Connection) : Bytes :=
  match k.operation with
  | .change (.register userName) => userName.text
  | .change (.unregister userName) => userName.text
  | .change (.connect userName _) => userName.text
  | .change (.disconnect userName) => userName.text
  | .change (.publish userName _ _) => userName.text
  | .change (.delete userName _) => userName.text
  | .listUsers userName => userName.text
  | .listContent _ userName => userName.text

/-- A file name without slashes that has arrived whole. -/
def PlainFile (fileName : Line) : Prop :=
  ValidName fileName.text ∧ fileName.length = fileName.text.length

instance (fileName : Line) : Decidable (PlainFile fileName) := inferInstanceAs (Decidable (_ ∧ _))

/-- The request is about one user, and its names have no slashes and are no dot names. -/
def Connection.Plain (k : Connection) : Prop :=
  match k.operation with
  | .change (.publish _ fileName _) => ValidName k.user ∧ PlainFile fileName
  | .change (.delete _ fileName) => ValidName k.user ∧ PlainFile fileName
  | .change _ => ValidName k.user
  | .listUsers _ => False
  | .listContent _ _ => ValidName k.user

/-! ## Paths -/

section Paths

variable {cwd : Pos} {u : Bytes} (hu : ValidName u)
include hu

/-- A path that goes on from the directory of the user. -/
theorem inside_of_components {path : Bytes} {cs : List Bytes} (hne : path ≠ [])
    (horigin : origin cwd path = cwd) (hcs : components path = dot :: users :: u :: cs)
    (hforward : dotDot ∉ cs) : Inside cwd (userPos cwd u) path := by
  have hwhole : dotDot ∉ dot :: users :: u :: cs := by
    intro hmem
    rcases List.mem_cons.1 hmem with hmem | hmem
    · exact absurd hmem (by decide)
    · rcases List.mem_cons.1 hmem with hmem | hmem
      · exact absurd hmem (by decide)
      · exact (List.mem_cons.1 hmem).elim (fun heq => hu.2.2.2.2 heq.symm) hforward
  refine ⟨hne, by rwa [hcs], ?_⟩
  have hempty : ¬(u = [] ∨ u = dot) := fun hor => hor.elim hu.1 hu.2.2.2.1
  have hstart : target cwd (dot :: users :: u :: cs) = target (userPos cwd u) cs := by
    rw [target, if_pos (.inr rfl), target, if_neg (by decide), if_neg (by decide), target,
      if_neg hempty, if_neg hu.2.2.2.2]
    rfl
  rw [horigin, hcs, hstart]
  exact prefix_target hforward

theorem inside_userPath : Inside cwd (userPos cwd u) (userPath u) :=
  inside_of_components hu (userPath_ne_nil u) (origin_userPath cwd u)
    (by rw [components_userPath, components_of_not_mem hu.2.1]) List.not_mem_nil

theorem inside_userDirPath : Inside cwd (userPos cwd u) (userDirPath u) :=
  inside_of_components hu (by simp [userDirPath]) (origin_userDirPath cwd u)
    (by rw [components_userDirPath, components_of_not_mem hu.2.1]; rfl) (by decide)

omit hu in
theorem inside_filePath {userName fileName : Line} (hu : ValidName userName.text)
    (hf : PlainFile fileName) :
    Inside cwd (userPos cwd userName.text) (filePath userName fileName) := by
  obtain ⟨hname, hlength⟩ := hf
  have hcs : components (filePath userName fileName) =
      dot :: users :: userName.text :: [fileName.text] := by
    rw [filePath, components_filePath, components_of_not_mem hu.2.1, hlength, List.take_length,
      components_of_not_mem hname.2.1]
    rfl
  have hne : filePath userName fileName ≠ [] := by simp [filePath, strncat, userDirPath]
  refine inside_of_components hu hne (origin_strncat cwd _ _ _) hcs fun hmem => ?_
  exact hname.2.2.2.2 (List.mem_singleton.1 hmem).symm

end Paths

/-! ## Programs -/

section Programs

variable {cwd : Pos} {u : Bytes} {ρ : Type}

/-- The calls of the program are about the user, whatever they answer. -/
abbrev About (cwd : Pos) (u : Bytes) (program : Program Call.Answer ρ) : Prop :=
  program.Confined (perform cwd) (fun env => env.calls ≤ posix cwd) (Concerns cwd u)

theorem returnStatus_about (output : Int) : About cwd u (returnStatus output) := trivial

theorem registerUser_about (hu : ValidName u) : About cwd u (registerUser u) := by
  refine .call rfl fun (registered : Int) => ?_
  unfold registerUser.checked
  split
  · refine .call (inside_userPath hu) fun (made : Int) => ?_
    unfold registerUser.made
    split <;> exact returnStatus_about _
  · split <;> exact returnStatus_about _

section Removal

variable {recurse : Bytes → Part} (hrec : ∀ path, Inside cwd (userPos cwd u) path →
  About cwd u (recurse path))
include hrec

theorem removeEntry_about {buf : Bytes} (hbuf : Inside cwd (userPos cwd u) buf) :
    About cwd u (removeEntry recurse buf) := by
  refine .call trivial fun (allocated : Bool) => ?_
  cases allocated with
  | false => trivial
  | true =>
    refine .call hbuf fun (entry : Option Entry) => ?_
    cases entry with
    | none => trivial
    | some e =>
      cases e with
      | dir => exact hrec buf hbuf
      | file old => exact .call hbuf fun _ => trivial

theorem removeEntries_about {path : Bytes} (hpath : Inside cwd (userPos cwd u) path)
    {entries : List Bytes} (hentries : ∀ n ∈ entries, n = dot ∨ n = dotDot ∨ ValidName n) :
    About cwd u (removeEntries recurse path entries) := by
  induction entries with
  | nil => trivial
  | cons dName rest ih =>
    have hrest := ih fun n hn => hentries n (List.mem_cons_of_mem _ hn)
    unfold removeEntries
    split
    · exact hrest
    · rename_i hdots
      have hname : ValidName dName := by
        rcases hentries dName List.mem_cons_self with h | h | h
        · exact absurd (.inl h) hdots
        · exact absurd (.inr h) hdots
        · exact h
      refine .bind (removeEntry_about hrec (hpath.snoc hname)) fun r => ?_
      split
      · exact hrest
      · trivial

end Removal

theorem removeDirectory_about (depth : Nat) {path : Bytes}
    (hpath : Inside cwd (userPos cwd u) path) : About cwd u (removeDirectory depth path) := by
  induction depth generalizing path with
  | zero => trivial
  | succ depth ih =>
    refine ⟨hpath, fun env henv m => ?_⟩
    unfold perform
    simp only
    cases hopen : env.calls.opendir m.store.tree path with
    | none => trivial
    | some entries =>
      obtain ⟨p, -, -, rfl⟩ := posix.opendir_eq_some_iff.1 (SysCalls.opendir_of_le henv hopen)
      refine .bind (removeEntries_about (fun _ h => ih h) hpath listing_names) fun r => ?_
      split
      · exact .call hpath fun _ => trivial
      · trivial

theorem unregisterUser_about (depth : Nat) (hu : ValidName u) :
    About cwd u (unregisterUser depth u) := by
  refine .call rfl fun (registered : Int) => ?_
  unfold unregisterUser.checked
  split
  · refine .bind (removeDirectory_about depth (inside_userPath hu)) fun removed => ?_
    unfold unregisterUser.removed
    split
    · exact returnStatus_about _
    · exact .call rfl fun _ => returnStatus_about _
  · split <;> exact returnStatus_about _

theorem connectUser_about (address : Option Bytes) (port : Bytes) :
    About cwd u (connectUser address u port) := by
  refine .call rfl fun (registered : Int) => ?_
  unfold connectUser.checked
  split
  · refine .call rfl fun (connected : Int) => ?_
    unfold connectUser.searched
    split
    · exact returnStatus_about _
    · cases address with
      | none => exact returnStatus_about _
      | some clientAddress => exact .call rfl fun _ => returnStatus_about _
  · split <;> exact returnStatus_about _

theorem disconnectUser_about : About cwd u (disconnectUser u) := by
  refine .call rfl fun (registered : Int) => ?_
  unfold disconnectUser.checked
  split
  · refine .call rfl fun (connected : Int) => ?_
    unfold disconnectUser.searched
    split
    · exact .call rfl fun _ => returnStatus_about _
    · exact returnStatus_about _
  · split <;> exact returnStatus_about _

theorem publishFile_about {userName fileName : Line} (fileDescription : Line)
    (hu : ValidName userName.text) (hf : PlainFile fileName) :
    About cwd userName.text (publishFile userName fileName fileDescription) := by
  refine .call rfl fun (registered : Int) => ?_
  unfold publishFile.checked
  split
  · refine .call rfl fun (connected : Int) => ?_
    unfold publishFile.connected
    split
    · refine .call (inside_userDirPath hu) fun (file : Int) => ?_
      unfold publishFile.searched
      split
      · -- the descriptor is in the user's directory
        have hpath : Inside cwd (userPos cwd userName.text) (filePath userName fileName) :=
          inside_filePath hu hf
        refine ⟨hpath, fun env henv m => ?_⟩
        unfold perform
        simp only
        cases hopen : env.calls.openCreate m.store.tree (filePath userName fileName) with
        | none => exact returnStatus_about _
        | some r =>
          obtain ⟨t, p⟩ := r
          have hp : userPos cwd userName.text <+: p := hpath.of_openCreate henv hopen
          refine .call hp fun (written : Int) => ?_
          unfold publishFile.written
          split <;> exact returnStatus_about _
      · split <;> exact returnStatus_about _
    · exact returnStatus_about _
  · exact returnStatus_about _

theorem deleteFile_about {userName fileName : Line} (hu : ValidName userName.text)
    (hf : PlainFile fileName) : About cwd userName.text (deleteFile userName fileName) := by
  refine .call (inside_userDirPath hu) fun (file : Int) => ?_
  unfold deleteFile.searched
  split
  · refine .call (inside_filePath hu hf) fun (removed : Int) => ?_
    unfold deleteFile.removed
    split <;> exact returnStatus_about _
  · split <;> exact returnStatus_about _

theorem listContent_about (hu : ValidName u) : About cwd u (listContent u) := by
  refine .call rfl fun (registered : Int) => ?_
  unfold listContent.checked
  split
  · have hpath : Inside cwd (userPos cwd u) (userDirPath u) := inside_userDirPath hu
    refine ⟨hpath, fun env henv m => ?_⟩
    unfold perform
    simp only
    cases env.calls.opendir m.store.tree (userDirPath u) with
    | none => exact returnStatus_about _
    | some entries =>
      cases hres : resolve cwd m.store.tree (userDirPath u) with
      | none => exact returnStatus_about _
      | some p =>
        have hp : userPos cwd u <+: p := hpath.of_resolve hres
        exact .call hp fun _ => .call hp fun _ => trivial
  · exact returnStatus_about _

theorem Connection.about {k : Connection} (depth : Nat) (hk : k.Plain) :
    About cwd k.user (k.program depth) := by
  obtain ⟨operation, address⟩ := k
  cases operation with
  | change r =>
    cases r with
    | register u => exact registerUser_about hk
    | unregister u => exact unregisterUser_about depth hk
    | connect u port => exact connectUser_about address port.text
    | disconnect u => exact disconnectUser_about
    | publish u f d => exact publishFile_about d hk.1 hk.2
    | delete u f => exact deleteFile_about hk.1 hk.2
  | listUsers _ => exact hk.elim
  | listContent _ u => exact listContent_about hk

end Programs

/-! ## Runs -/

/-- The users as keys of the requests. -/
def userViews (cwd : Pos) : System.Views Machine Connection Conditions Bytes UserView where
  key := Connection.user
  view := userView cwd
  conditions env := env.calls ≤ posix cwd

/-- A request about one user with plain names comes, or a call is made on a POSIX system, where it
may fail. -/
def Plainly (cwd : Pos) : ServerMove → Prop
  | .spawn k => k.Plain
  | .run _ env => env.calls ≤ posix cwd

/-- A request about a user comes when no other request about the user is being served. -/
def Separate (p : ServerPool) : ServerMove → Prop
  | .spawn k => ∀ t ∈ p.threads, t.rest.action? ≠ none → t.request.user ≠ k.user
  | .run _ _ => True

instance (p : ServerPool) : DecidablePred (Separate p)
  | .spawn _ => inferInstanceAs (Decidable (∀ t ∈ _, _))
  | .run _ _ => isTrue trivial

/-- A call about a user is local to the user. -/
theorem local_of_concerns {cwd : Pos} {depth : Nat} {u : Bytes} {a : Call}
    (ha : Concerns cwd u a) : (server cwd depth).Local (userViews cwd) u a where
  own := by
    intro env henv m m' hview
    obtain ⟨c, hc, hsame⟩ := perform_choice henv a m
    have hle : c ≤ posix cwd := by
      rcases hc with rfl | rfl
      · exact SysCalls.failing_le _
      · exact SysCalls.le_refl _
    obtain ⟨hanswer, hviews⟩ := perform_congr hview hc env.allocated ha
    refine ⟨⟨c, env.allocated⟩, hle, ?_, ?_⟩
    · exact hanswer.symm.trans (congrArg Prod.fst hsame).symm
    · exact hviews.symm.trans (congrArg (fun r => userView cwd u r.2) hsame).symm
  frame _ henv _ _ hv := perform_frame hv henv ha

/-- **The server keeps users apart without a lock.** Requests that are each about one user, no two
of them about one user at the same time, are served as if one after the other in the order in which
they end, each with the outcome that it would have then; and the part of every user that no request
is about is what they leave of it. -/
theorem separateUsers_serial {cwd : Pos} {depth : Nat} {m : Machine}
    {steps : List (ServerPool × ServerMove)} {p : ServerPool}
    (h : Run ((server cwd depth).StepIn (Plainly cwd)) (initialPool m) steps p)
    (hG : Guarded Separate steps) :
    ∃ m', (server cwd depth).SerialIn (userViews cwd) m ((server cwd depth).ended steps) m' ∧
      ∀ u, (∀ t ∈ p.threads, t.rest.action? ≠ none → t.request.user ≠ u) →
        userView cwd u m' = userView cwd u p.shared := by
  have hadmits : ∀ p mv, Plainly cwd mv → Separate p mv →
      System.Admits (server cwd depth) (userViews cwd) p mv := by
    intro p mv hC hG
    cases mv with
    | spawn k =>
      refine ⟨(Connection.about depth hC).mono fun a => local_of_concerns, ?_⟩
      rintro ⟨t, ht, hrun, hkey⟩
      exact hG t ht hrun hkey
    | run i env => exact hC
  obtain ⟨m', hserial, hviews⟩ := System.serial_of_local hadmits h hG
  refine ⟨m', hserial, fun u hu => hviews u ?_⟩
  rintro ⟨t, ht, hrun, hkey⟩
  exact hu t ht hrun hkey

/-- Bob is registered while alice is connected. -/
theorem aliceBob_serial :
    let moves : List ServerMove :=
      [.spawn ⟨.change (.connect (.of (cstring "alice")) (.of (cstring "4001"))),
          some (cstring "::1")⟩,
        .run 0 posixConditions, .spawn ⟨.change (.register (.of (cstring "bob"))), none⟩,
        .run 1 posixConditions, .run 0 posixConditions, .run 1 posixConditions,
        .run 0 posixConditions]
    let p := moves.foldl (server [] 8).move (initialPool aliceMachine)
    ∃ m', (server [] 8).SerialIn (userViews []) aliceMachine
        ((server [] 8).ended ((server [] 8).schedule (initialPool aliceMachine) moves)) m' ∧
      ∀ u, (∀ t ∈ p.threads, t.rest.action? ≠ none → t.request.user ≠ u) →
        userView [] u m' = userView [] u p.shared := by
  intro moves p
  have hle : posixConditions.calls ≤ posix [] := SysCalls.le_refl _
  refine separateUsers_serial ((server [] 8).run_schedule_in _ moves ?_) (by decide +kernel)
  intro mv hmv
  simp only [moves, List.mem_cons, List.not_mem_nil, or_false] at hmv
  rcases hmv with rfl | rfl | rfl | rfl | rfl | rfl | rfl
  · show ValidName _
    decide
  · exact hle
  · show ValidName _
    decide
  · exact hle
  · exact hle
  · exact hle
  · exact hle

end DistributedSystems.Lab.Preemptive
