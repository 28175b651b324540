import DistributedSystems.Lab.ServerC.ThreadCalls

/-!
# Directory handles

How the handles of opened directories are used: `handles` is the monitor of the rule that a handle
is read, rewound and closed only while it is open. `remove_directory` keeps the rule and closes what
it opens, in every call of its recursion. The other functions close a directory also where none has
been opened, and the listing of the daemon never closes its own.
-/

namespace DistributedSystems.Lab.Traced

open Fs Support

/-! ## Removal as without its calls -/

section Removal

variable (env : Env)

/-- What the removal of a directory leaves of the world: its tree, and the number of directories
that have been opened. -/
def Removes (part : Part Int) (r : Tree → Int × Tree) : Prop :=
  ∀ w, ∃ n, part.run (exec env) w =
    ((r w.store.tree).1,
      { w with store := { w.store with tree := (r w.store.tree).2 }, opened := n })

variable {env}

/-- One turn of the removal, by calls. -/
theorem removes_entry {recurse : Bytes → Part Int} {recurse' : Tree → Bytes → Int × Tree}
    (h : ∀ path, Removes env (recurse path) fun t => recurse' t path) (buf : Bytes) :
    Removes env (removeEntry recurse buf) fun t => Lab.removeEntry env.calls recurse' t buf := by
  intro w
  simp only [removeEntry, Lab.removeEntry, Program.run_call, exec]
  cases env.calls.malloc w.store.tree buf with
  | false => exact ⟨w.opened, rfl⟩
  | true =>
    simp only [Program.run_call, exec, if_true]
    cases env.calls.stat w.store.tree buf with
    | none => exact ⟨w.opened, rfl⟩
    | some entry =>
      cases entry with
      | dir => exact h buf w
      | file content =>
        simp only [Program.run_call, exec]
        cases env.calls.unlink w.store.tree buf with
        | none => exact ⟨w.opened, rfl⟩
        | some t => exact ⟨w.opened, rfl⟩

/-- The loop of the removal, by calls. -/
theorem removes_entries {recurse : Bytes → Part Int} {recurse' : Tree → Bytes → Int × Tree}
    (h : ∀ path, Removes env (recurse path) fun t => recurse' t path) (directory : Option Nat)
    (path : Bytes) (names : List Bytes) :
    Removes env (removeEntries recurse directory path names) fun t =>
      Lab.removeEntries env.calls recurse' path names t := by
  induction names with
  | nil => exact fun w => ⟨w.opened, rfl⟩
  | cons dName rest ih =>
    intro w
    simp only [removeEntries, Lab.removeEntries, Program.run_call, exec]
    by_cases hdot : dName = dot ∨ dName = dotDot
    · rw [if_pos hdot, if_pos hdot]
      exact ih w
    · obtain ⟨n, hn⟩ := removes_entry h (path ++ slash :: dName) w
      rw [if_neg hdot, if_neg hdot, Program.run_bind, hn]
      dsimp only
      by_cases hzero :
          (Lab.removeEntry env.calls recurse' w.store.tree (path ++ slash :: dName)).1 = 0
      · rw [if_pos hzero, if_pos hzero]
        exact ih _
      · rw [if_neg hzero, if_neg hzero]
        exact ⟨n, rfl⟩

/-- `remove_directory` removes as without its calls. -/
theorem removes_directory (depth : Nat) (path : Bytes) :
    Removes env (removeDirectory depth path) fun t =>
      removeDirectoryAux env.calls depth t path := by
  induction depth generalizing path with
  | zero => exact fun w => ⟨w.opened, rfl⟩
  | succ depth ih =>
    intro w
    simp only [removeDirectory, removeDirectoryAux, Program.run_call]
    cases hopen : env.calls.opendir w.store.tree path with
    | none =>
      rw [exec_opendir_none hopen]
      exact ⟨w.opened, rfl⟩
    | some names =>
      rw [exec_opendir_some hopen]
      obtain ⟨n, hn⟩ := removes_entries ih (some w.opened) path names
        { w with opened := w.opened + 1 }
      dsimp only at hn ⊢
      rw [Program.run_bind, hn]
      simp only [Program.run_call, exec]
      split
      · simp only [Program.run_call, exec]
        cases env.calls.rmdir (Lab.removeEntries env.calls (removeDirectoryAux env.calls depth) path
            names w.store.tree).2 path with
        | none => exact ⟨n, rfl⟩
        | some t => exact ⟨n, rfl⟩
      · exact ⟨n, rfl⟩

end Removal

/-! ## The rule -/

/-- The use of a handle that has to be open. -/
def useHandle (opened : List Nat) : Option Nat → Option (List Nat)
  | none => none
  | some handle => if handle ∈ opened then some opened else none

/-- Which handles are open: `opendir` adds one, and `closedir` takes out one that is there. -/
def handles : Monitor Call.Answer (List Nat)
  | opened, ⟨.opendir _, some directory⟩ => some (directory.handle :: opened)
  | opened, ⟨.readdir directory, _⟩ => useHandle opened directory
  | opened, ⟨.rewinddir directory, _⟩ => useHandle opened directory
  | opened, ⟨.closedir directory, _⟩ =>
    (useHandle opened directory).map fun opened => opened.erase (directory.getD 0)
  | opened, _ => some opened

variable (env : Env) (w : World)

/-- The part uses only handles that it has opened and not closed, and closes all that it opens. -/
def Disciplined {ρ : Type} (part : Part ρ) : Prop := handles.Leads (exec env) part w [] []

instance {ρ : Type} (part : Part ρ) : Decidable (Disciplined env w part) :=
  inferInstanceAs (Decidable (handles.watch [] (part.trace (exec env) w) = some []))

variable {env w} {opened : List Nat}

theorem useHandle_cons (handle : Nat) :
    useHandle (handle :: opened) (some handle) = some (handle :: opened) :=
  if_pos List.mem_cons_self

theorem handles_closedir (handle : Nat) :
    handles (handle :: opened) ⟨.closedir (some handle), ()⟩ = some opened := by
  simp [handles, useHandle_cons]

/-- `closedir` of NULL is no close of an open directory. -/
theorem breaks_closedir_null {ρ : Type} {next : Unit → Part ρ} :
    handles.Breaks (exec env) (.call (.closedir none) next) w opened :=
  Monitor.breaks_call rfl

section Opendir

variable {ρ : Type} {path : Bytes} {next : Option Directory → Part ρ} {after : List Nat}

theorem leads_opendir_none (h : env.calls.opendir w.store.tree path = none)
    (hnext : handles.Leads (exec env) (next none) w opened after) :
    handles.Leads (exec env) (.call (.opendir path) next) w opened after := by
  have hexec := exec_opendir_none h
  refine Monitor.Leads.call (by rw [hexec]; rfl) ?_
  rw [hexec]
  exact hnext

/-- A directory that opens has a handle of its own. -/
theorem leads_opendir_some {names : List Bytes}
    (h : env.calls.opendir w.store.tree path = some names)
    (hnext : handles.Leads (exec env) (next (some ⟨w.opened, names⟩))
      { w with opened := w.opened + 1 } (w.opened :: opened) after) :
    handles.Leads (exec env) (.call (.opendir path) next) w opened after := by
  have hexec := exec_opendir_some h
  refine Monitor.Leads.call (by rw [hexec]; rfl) ?_
  rw [hexec]
  exact hnext

theorem breaks_opendir_none (h : env.calls.opendir w.store.tree path = none)
    (hnext : handles.Breaks (exec env) (next none) w opened) :
    handles.Breaks (exec env) (.call (.opendir path) next) w opened := by
  have hexec := exec_opendir_none h
  refine Monitor.Breaks.call (by rw [hexec]; rfl) ?_
  rw [hexec]
  exact hnext

end Opendir

/-- A call that has nothing to do with directories. -/
def Call.Elsewhere : Call → Prop
  | .opendir _ => False
  | .readdir _ => False
  | .rewinddir _ => False
  | .closedir _ => False
  | _ => True

theorem handles_elsewhere (a : Call) (h : a.Elsewhere) (x : a.Answer) :
    handles opened ⟨a, x⟩ = some opened := by
  cases a with
  | opendir path => exact h.elim
  | readdir directory => exact h.elim
  | rewinddir directory => exact h.elim
  | closedir directory => exact h.elim
  | _ => rfl

/-! ## The lookups -/

/-- The search uses its directory while it is open, and closes it. -/
theorem leads_scan (handle : Nat) (name : Bytes) (names : List Bytes) :
    handles.Leads (exec env) (scan (some handle) name names) w (handle :: opened) opened := by
  induction names with
  | nil =>
    exact .call (useHandle_cons handle) (.call (handles_closedir handle) (Monitor.leads_done 0))
  | cons dName rest ih =>
    refine .call (useHandle_cons handle) ?_
    split
    · exact .call (handles_closedir handle) (Monitor.leads_done 1)
    · exact ih

/-- A search whose directory opens is disciplined. -/
theorem leads_searchDirectory {path name : Bytes} {names : List Bytes}
    (h : env.calls.opendir w.store.tree path = some names) :
    handles.Leads (exec env) (searchDirectory path name) w opened opened :=
  leads_opendir_some h (leads_scan _ _ _)

/-- Without a directory the lookup closes NULL. -/
theorem breaks_searchDirectory {path name : Bytes}
    (h : env.calls.opendir w.store.tree path = none) :
    handles.Breaks (exec env) (searchDirectory path name) w opened :=
  breaks_opendir_none h breaks_closedir_null

/-- `isusr_registered` and `file_exists` are disciplined when their directory opens: otherwise they
close NULL. -/
theorem searchDirectory_disciplined_iff (path name : Bytes) :
    Disciplined env w (searchDirectory path name) ↔
      (env.calls.opendir w.store.tree path).isSome := by
  cases h : env.calls.opendir w.store.tree path with
  | none => exact iff_of_false (breaks_searchDirectory h).not_leads (by simp)
  | some names => exact iff_of_true (leads_searchDirectory h) rfl

/-! ## Removal -/

/-- One turn of the removal is disciplined if the recursion is. -/
theorem leads_removeEntry {recurse : Bytes → Part Int}
    (h : ∀ path w, handles.Leads (exec env) (recurse path) w opened opened) (buf : Bytes) :
    handles.Leads (exec env) (removeEntry recurse buf) w opened opened := by
  refine .call rfl ?_
  cases (exec env (.malloc buf) w).1 with
  | false => exact Monitor.leads_done _
  | true =>
    refine .call rfl ?_
    split
    · exact Monitor.leads_done _
    · exact h _ _
    · exact .call rfl (Monitor.leads_done _)

/-- The loop reads its directory while it is open. -/
theorem leads_removeEntries {recurse : Bytes → Part Int} {handle : Nat}
    (h : ∀ path w, handles.Leads (exec env) (recurse path) w (handle :: opened) (handle :: opened))
    (path : Bytes) (names : List Bytes) :
    handles.Leads (exec env) (removeEntries recurse (some handle) path names) w
      (handle :: opened) (handle :: opened) := by
  induction names generalizing w with
  | nil => exact .call (useHandle_cons handle) (Monitor.leads_done 0)
  | cons dName rest ih =>
    refine .call (useHandle_cons handle) ?_
    split
    · exact ih
    · refine .bind (leads_removeEntry h _) ?_
      split
      · exact ih
      · exact Monitor.leads_done _

/-- `remove_directory` closes each directory that it opens, at every depth of its recursion. -/
theorem leads_removeDirectory (depth : Nat) (path : Bytes) :
    handles.Leads (exec env) (removeDirectory depth path) w opened opened := by
  induction depth generalizing path w opened with
  | zero => exact Monitor.leads_done _
  | succ depth ih =>
    cases h : env.calls.opendir w.store.tree path with
    | none => exact leads_opendir_none h (Monitor.leads_done _)
    | some names =>
      refine leads_opendir_some h ?_
      refine .bind (leads_removeEntries (fun path w => ih path) path names) ?_
      refine .call (handles_closedir _) ?_
      split
      · exact .call rfl (Monitor.leads_done _)
      · exact Monitor.leads_done _

/-! ## Listings -/

/-- Counting reads the directory and winds it back. -/
theorem leads_countEntries (handle : Nat) (names : List Bytes) :
    handles.Leads (exec env) (countEntries (some handle) names) w (handle :: opened)
      (handle :: opened) := by
  induction names generalizing w with
  | nil => exact .call (useHandle_cons handle) (Monitor.leads_done _)
  | cons dName rest ih => exact .call (useHandle_cons handle) ih

/-- Sending reads the directory to its end. -/
theorem leads_sendEntries (handle : Nat) (names : List Bytes) :
    handles.Leads (exec env) (sendEntries (some handle) names) w (handle :: opened)
      (handle :: opened) := by
  induction names generalizing w with
  | nil => exact .call (useHandle_cons handle) (Monitor.leads_done _)
  | cons dName rest ih =>
    refine .call (useHandle_cons handle) ?_
    split
    · exact ih
    · exact .bind (Monitor.leads_of_always handles_elsewhere
        (always_writeLine (fun _ => trivial) _)) ih

theorem leads_finish (handle : Nat) :
    handles.Leads (exec env) (listContent.finish (some handle)) w (handle :: opened) opened :=
  .call (handles_closedir handle) (.call rfl (Monitor.leads_done _))

/-- A listing closes its directory at the end. -/
theorem leads_counted (directory : Directory) :
    handles.Leads (exec env) (listContent.counted directory) w (directory.handle :: opened)
      opened := by
  refine .call (useHandle_cons _) (.call rfl ?_)
  split
  · exact leads_finish _
  · refine .call rfl ?_
    split
    · exact leads_finish _
    · exact .bind (leads_sendEntries _ _) (leads_finish _)

/-- A user's directory that does not open is closed all the same. -/
theorem breaks_checked {v : Variables} {userName : Bytes}
    (h : env.calls.opendir w.store.tree (userDirPath userName) = none) (registered : Int)
    (hregistered : registered ≠ 0) :
    handles.Breaks (exec env) (listContent.checked v userName registered) w opened := by
  unfold listContent.checked
  rw [if_pos hregistered]
  exact breaks_opendir_none h breaks_closedir_null

/-- A user's directory that opens is counted, sent and closed. -/
theorem leads_checked {v : Variables} {userName : Bytes} {names : List Bytes}
    (h : env.calls.opendir w.store.tree (userDirPath userName) = some names) (registered : Int)
    (hregistered : registered ≠ 0) :
    handles.Leads (exec env) (listContent.checked v userName registered) w opened opened := by
  unfold listContent.checked
  rw [if_pos hregistered]
  exact leads_opendir_some h (.bind (leads_countEntries _ _) (leads_counted _))

/-- Without an entry of the name, the listing closes a variable that nothing has been stored to. -/
theorem breaks_checked_zero (v : Variables) (userName : Bytes) :
    handles.Breaks (exec env) (listContent.checked v userName 0) w [] := by
  refine .call rfl (Monitor.breaks_call ?_)
  unfold handles
  cases v.directory <;> rfl

/-- What follows a lookup in `./Users`: the call breaks the rule without the directory, and else
what it says is whether the name is there. -/
theorem registered_bind {ρ : Type} (userName : Bytes) (next : Int → Part ρ) :
    (env.calls.opendir w.store.tree usersDirectory = none ∧
      handles.Breaks (exec env) ((isusrRegistered userName).bind next) w []) ∨
    ∃ names n, env.calls.opendir w.store.tree usersDirectory = some names ∧
      ∀ opened,
        (handles.Leads (exec env) (next (if userName ∈ names then 1 else 0)) { w with opened := n }
          [] opened → handles.Leads (exec env) ((isusrRegistered userName).bind next) w [] opened) ∧
        (handles.Breaks (exec env) (next (if userName ∈ names then 1 else 0)) { w with opened := n }
          [] → handles.Breaks (exec env) ((isusrRegistered userName).bind next) w []) := by
  cases h : env.calls.opendir w.store.tree usersDirectory with
  | none => exact Or.inl ⟨rfl, (breaks_searchDirectory h).bind⟩
  | some names =>
    obtain ⟨n, hn⟩ := run_isusrRegistered env userName w
    have hscan : Lab.isusrRegistered env.calls w.store.tree userName =
        if userName ∈ names then 1 else 0 := searchDirectory_of_opendir h
    rw [hscan] at hn
    refine Or.inr ⟨names, n, rfl, fun opened => ⟨fun hnext => ?_, fun hnext => ?_⟩⟩
    · refine .bind (leads_searchDirectory h) ?_
      rw [hn]
      exact hnext
    · refine Monitor.Leads.bind_breaks (leads_searchDirectory h) ?_
      rw [hn]
      exact hnext

/-- `./Users` opens and has the user in it, whose directory opens too. -/
def Listable (c : SysCalls) (t : Tree) (userName : Bytes) : Prop :=
  ∃ names, c.opendir t usersDirectory = some names ∧ userName ∈ names ∧
    (c.opendir t (userDirPath userName)).isSome

/-- When a LIST_CONTENT is disciplined, once its names are read. -/
theorem checked_disciplined_iff (v : Variables) (userName : Bytes) :
    Disciplined env w ((isusrRegistered userName).bind (listContent.checked v userName)) ↔
      Listable env.calls w.store.tree userName := by
  unfold Disciplined Listable
  obtain ⟨h, hbreaks⟩ | ⟨names, n, h, hnext⟩ :=
    registered_bind userName (listContent.checked v userName)
  · exact iff_of_false hbreaks.not_leads (by simp [h])
  · by_cases hmem : userName ∈ names
    · rw [if_pos hmem] at hnext
      cases hopen : env.calls.opendir w.store.tree (userDirPath userName) with
      | none =>
        refine iff_of_false ((hnext []).2 ?_).not_leads (by simp)
        exact breaks_checked (w := { w with opened := n }) hopen 1 (by decide)
      | some entries =>
        refine iff_of_true ((hnext []).1 ?_) ⟨names, h, hmem, rfl⟩
        exact leads_checked (w := { w with opened := n }) hopen 1 (by decide)
    · rw [if_neg hmem] at hnext
      refine iff_of_false ((hnext []).2 (breaks_checked_zero v userName)).not_leads ?_
      rintro ⟨names', h', hmem', -⟩
      rw [h] at h'
      cases h'
      exact hmem hmem'

/-- The daemon's listing never closes the user's directory, so that it is disciplined only where it
does not get to one. -/
theorem listContent1Svc_disciplined_iff (userName : Bytes) :
    Disciplined env w (listContent1Svc userName) ↔
      ∃ names, env.calls.opendir w.store.tree usersDirectory = some names ∧
        userName ∉ names := by
  unfold Disciplined listContent1Svc
  obtain ⟨h, hbreaks⟩ | ⟨names, n, h, hnext⟩ :=
    registered_bind userName (listContent1Svc.checked userName)
  · exact iff_of_false hbreaks.not_leads (by simp [h])
  · by_cases hmem : userName ∈ names
    · rw [if_pos hmem] at hnext
      have hnot : ¬ ∃ names, env.calls.opendir w.store.tree usersDirectory = some names ∧
          userName ∉ names := by
        rintro ⟨names', h', hmem'⟩
        rw [h] at h'
        cases h'
        exact hmem' hmem
      refine iff_of_false ?_ hnot
      cases hopen : env.calls.opendir w.store.tree (userDirPath userName) with
      | none =>
        refine ((hnext []).2 ?_).not_leads
        exact breaks_opendir_none (w := { w with opened := n }) hopen breaks_closedir_null
      | some entries =>
        -- the handle is still open at the end
        have hopened : handles.Leads (exec env) ((isusrRegistered userName).bind
            (listContent1Svc.checked userName)) w [] [n] := by
          refine (hnext [n]).1 (leads_opendir_some (w := { w with opened := n }) hopen ?_)
          refine .bind (leads_countEntries _ _) (.call (useHandle_cons _) ?_)
          exact .bind (leads_countEntries _ _) (Monitor.leads_done _)
        intro hleads
        cases hopened.unique hleads
    · rw [if_neg hmem] at hnext
      exact iff_of_true ((hnext []).1 (Monitor.leads_done _)) ⟨names, h, hmem⟩

theorem run_countEntries (directory : Option Nat) (names : List Bytes) :
    ((countEntries directory names).run (exec env) w).2 = w := by
  induction names with
  | nil => rfl
  | cons dName rest ih => exact ih

/-- `list_content_1_svc` answers as without its calls. -/
theorem run_listContent1Svc (userName : Bytes) :
    ((listContent1Svc userName).run (exec env) w).1 =
      Lab.listContent1Svc env.calls userName w.store := by
  obtain ⟨n, hn⟩ := run_isusrRegistered env userName w
  unfold listContent1Svc listContent1Svc.checked Lab.listContent1Svc
  rw [Program.run_bind, hn]
  dsimp only
  split
  · rfl
  · cases hopen : env.calls.opendir w.store.tree (userDirPath userName) with
    | none =>
      rw [Program.run_call, exec_opendir_none (w := { w with opened := n }) hopen]
      rfl
    | some names =>
      rw [Program.run_call, exec_opendir_some (w := { w with opened := n }) hopen]
      simp only [Program.run_bind, Program.run_call, listTitles, Program.run_done]

/-- When a LIST_CONTENT is disciplined. -/
theorem listContent_disciplined_iff (v : Variables) :
    Disciplined env w (listContent v) ↔
      ∀ userop rest user rest', receive v.useropName w.input = some (userop, rest) →
        receive v.userName rest = some (user, rest') →
          Listable env.calls w.store.tree user.text := by
  unfold Disciplined listContent
  rw [Monitor.leads_call_iff rfl]
  cases huserop : receive v.useropName w.input with
  | none =>
    obtain ⟨rest, hrest⟩ := exec_readLine_none env huserop
    rw [hrest]
    exact iff_of_true (.call rfl (Monitor.leads_done _)) (by simp)
  | some r =>
    obtain ⟨userop, rest⟩ := r
    rw [exec_readLine_some env huserop]
    dsimp only
    rw [Monitor.leads_call_iff rfl]
    cases huser : receive v.userName rest with
    | none =>
      obtain ⟨rest', hrest'⟩ := exec_readLine_none env (w := { w with input := rest }) huser
      rw [hrest']
      refine iff_of_true (.call rfl (Monitor.leads_done _)) ?_
      intro _ _ _ _ huserop' huser'
      cases huserop'
      rw [huser] at huser'
      cases huser'
    | some r' =>
      obtain ⟨user, rest'⟩ := r'
      rw [exec_readLine_some env (w := { w with input := rest }) huser]
      refine (checked_disciplined_iff (w := { w with input := rest' }) v user.text).trans ?_
      refine ⟨fun h => ?_, fun h => h userop rest user rest' rfl huser⟩
      intro _ _ _ _ huserop' huser'
      cases huserop'
      rw [huser] at huser'
      cases huser'
      exact h

/-- **When directory handles are used correctly.** -/
theorem disciplined_iff (env : Env) (w : World) :
    (∀ userName, Disciplined env w (isusrRegistered userName) ↔
      (env.calls.opendir w.store.tree usersDirectory).isSome) ∧
    (∀ fileName directoryPath, Disciplined env w (fileExists fileName directoryPath) ↔
      (env.calls.opendir w.store.tree directoryPath).isSome) ∧
    (∀ depth path, Disciplined env w (removeDirectory depth path)) ∧
    (∀ v, Disciplined env w (listContent v) ↔
      ∀ userop rest user rest', receive v.useropName w.input = some (userop, rest) →
        receive v.userName rest = some (user, rest') →
          Listable env.calls w.store.tree user.text) ∧
    ∀ userName, Disciplined env w (listContent1Svc userName) ↔
      ∃ names, env.calls.opendir w.store.tree usersDirectory = some names ∧ userName ∉ names :=
  ⟨fun userName => searchDirectory_disciplined_iff usersDirectory userName,
    fun fileName directoryPath => searchDirectory_disciplined_iff directoryPath fileName,
    fun depth path => leads_removeDirectory depth path,
    fun v => listContent_disciplined_iff v,
    fun userName => listContent1Svc_disciplined_iff userName⟩

/-- A user without a directory is listed, and the daemon lists one with a directory. -/
theorem handles_misused :
    ¬ Disciplined posixEnv (aliceBobWorld (cstring "alice\x00carol\x00") fun _ => .whole)
        (listContent .zeros) ∧
      ¬ Disciplined posixEnv (aliceBobWorld [] fun _ => .whole)
        (listContent1Svc (cstring "alice")) := by
  decide

end DistributedSystems.Lab.Traced
