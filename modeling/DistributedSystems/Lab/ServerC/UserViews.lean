import DistributedSystems.Fs.Region
import DistributedSystems.Lab.Lib.UserPaths
import DistributedSystems.Lab.ServerC.Preemptive

/-!
# What the calls about one user see and change

The part of the server that belongs to a user: the entries around its directory, how often each has
been removed, and its records, in their order. A call about a user goes by that part alone
(`perform_congr`), and leaves the parts of the other users as they are (`perform_frame`).
-/

namespace DistributedSystems.Lab.Preemptive

open Fs Support

/-- The directory of a user. -/
def userPos (cwd : Pos) (u : Bytes) : Pos := usersPos cwd ++ [u]

structure UserView where
  entries : List (Pos × Entry)
  removals : Pos → Nat
  records : List UserServerData

def userView (cwd : Pos) (u : Bytes) (m : Machine) : UserView where
  entries := m.store.tree.around (userPos cwd u)
  removals q := if userPos cwd u <+: q then m.removals q else 0
  records := m.store.connected.filter fun d => d.name = u

/-- The call is about the user, and its paths lead into the user's directory. -/
def Concerns (cwd : Pos) (u : Bytes) : Call → Prop
  | .isusrRegistered userName => userName = u
  | .findElementByname userName => userName = u
  | .addElement data => data.name = u
  | .deleteElement userName => userName = u
  | .mkdir path => Inside cwd (userPos cwd u) path
  | .opendir path => Inside cwd (userPos cwd u) path
  | .malloc _ => True
  | .stat path => Inside cwd (userPos cwd u) path
  | .unlink path => Inside cwd (userPos cwd u) path
  | .rmdir path => Inside cwd (userPos cwd u) path
  | .fileExists _ directoryPath => Inside cwd (userPos cwd u) directoryPath
  | .openCreate path => Inside cwd (userPos cwd u) path
  | .write file _ => userPos cwd u <+: file.pos
  | .remove path => Inside cwd (userPos cwd u) path
  | .openDirectory path => Inside cwd (userPos cwd u) path
  | .countFiles directory => userPos cwd u <+: directory.pos
  | .sendFiles directory => userPos cwd u <+: directory.pos
  | .getElements => False
  | .listGetSize => False

/-! ## Records -/

section Records

variable {u v : Bytes} {l l' : List UserServerData}

theorem findElementByname_congr
    (h : (l.filter fun d => d.name = u) = l'.filter fun d => d.name = u) :
    findElementByname l u = findElementByname l' u := by
  have hmem : ∀ k : List UserServerData,
      u ∈ userNames k ↔ (k.filter fun d => d.name = u) ≠ [] := by
    intro k
    rw [userNames, List.mem_map, ne_eq, List.filter_eq_nil_iff]
    simp
  rw [findElementByname_eq, findElementByname_eq]
  simp only [hmem l, hmem l', h]

theorem filter_deleteElement_self (u : Bytes) (l : List UserServerData) :
    ((deleteElement u l).filter fun d => d.name = u) =
      (l.filter fun d => d.name = u).tail := by
  induction l with
  | nil => rfl
  | cons d l ih =>
    unfold deleteElement
    by_cases hd : d.name = u
    · rw [if_pos hd, List.filter_cons_of_pos (by simpa using hd), List.tail_cons]
    · rw [if_neg hd, List.filter_cons_of_neg (by simpa using hd),
        List.filter_cons_of_neg (by simpa using hd), ih]

theorem filter_deleteElement_of_ne (h : v ≠ u) (l : List UserServerData) :
    ((deleteElement u l).filter fun d => d.name = v) = l.filter fun d => d.name = v := by
  have hsub : ∀ k : List UserServerData, (k.filter fun d => d.name = v) =
      (k.filter fun d => d.name ≠ u).filter fun d => d.name = v := by
    intro k
    rw [List.filter_filter]
    refine List.filter_congr fun d _ => ?_
    by_cases hd : d.name = v
    · simp [hd, h]
    · simp [hd]
  rw [hsub, filter_deleteElement, ← hsub]

end Records

/-! ## One user's calls -/

section Congr

variable {cwd : Pos} {u : Bytes} {m m' : Machine} (h : userView cwd u m = userView cwd u m')
include h

theorem around_of_view :
    m.store.tree.around (userPos cwd u) = m'.store.tree.around (userPos cwd u) :=
  congrArg UserView.entries h

theorem removals_of_view {q : Pos} (hq : userPos cwd u <+: q) : m.removals q = m'.removals q := by
  have hsame := congrFun (congrArg UserView.removals h) q
  unfold userView at hsame
  simp only at hsame
  rwa [if_pos hq, if_pos hq] at hsame

theorem records_of_view :
    (m.store.connected.filter fun d => d.name = u) =
      m'.store.connected.filter fun d => d.name = u :=
  congrArg UserView.records h

theorem opened_congr {p : Pos} (hp : userPos cwd u <+: p) : m.opened p = m'.opened p := by
  unfold Machine.opened
  rw [removals_of_view h hp]

theorem alive_congr {d : Descriptor} (hd : userPos cwd u <+: d.pos) : m.Alive d ↔ m'.Alive d := by
  unfold Machine.Alive
  rw [removals_of_view h hd]

theorem filesIn_congr {d : Descriptor} (hd : userPos cwd u <+: d.pos) :
    m.filesIn d = m'.filesIn d := by
  unfold Machine.filesIn listing
  rw [Tree.names_congr (around_of_view h) hd]
  by_cases halive : m.Alive d
  · rw [if_pos halive, if_pos ((alive_congr h hd).1 halive)]
  · rw [if_neg halive, if_neg (mt (alive_congr h hd).2 halive)]

/-- Whether there is an entry of the user is decided around its directory. -/
theorem isusrRegistered_congr {c : SysCalls} (hc : c = .failing ∨ c = posix cwd) :
    isusrRegistered c m.store.tree u = isusrRegistered c m'.store.tree u := by
  rcases hc with rfl | rfl
  · rfl
  · have hparent : Near (userPos cwd u) (usersPos cwd) := .inl (List.prefix_append _ _)
    have hself : Near (userPos cwd u) (usersPos cwd ++ [u]) := .inl (List.prefix_refl _)
    have hentries := around_of_view h
    rw [isusrRegistered_eq, isusrRegistered_eq, Tree.get_congr hentries hparent]
    simp only [mem_listing_iff, Tree.get_congr hentries hself]

theorem withTree_congr {t t' : Tree}
    (ht : t.around (userPos cwd u) = t'.around (userPos cwd u)) :
    userView cwd u (m.withTree t) = userView cwd u (m'.withTree t') := by
  have hremovals : (userView cwd u (m.withTree t)).removals =
      (userView cwd u (m'.withTree t')).removals := by
    funext q
    unfold userView Machine.withTree
    simp only
    by_cases hq : userPos cwd u <+: q
    · rw [if_pos hq, if_pos hq, Tree.get_congr (around_of_view h) (.inr hq),
        Tree.get_congr ht (.inr hq), removals_of_view h hq]
    · rw [if_neg hq, if_neg hq]
  have hrecords := records_of_view h
  unfold userView at hremovals ⊢
  simp only [Machine.tree_withTree, Machine.connected_withTree, UserView.mk.injEq]
  exact ⟨ht, hremovals, hrecords⟩

theorem change_congr {o o' : Option Tree}
    (ho : o.map (·.around (userPos cwd u)) = o'.map (·.around (userPos cwd u))) :
    (m.change o).1 = (m'.change o').1 ∧
      userView cwd u (m.change o).2 = userView cwd u (m'.change o').2 := by
  cases o with
  | none =>
    cases o' with
    | none => exact ⟨rfl, h⟩
    | some t' => cases ho
  | some t =>
    cases o' with
    | none => cases ho
    | some t' => exact ⟨rfl, withTree_congr h (Option.some.inj ho)⟩

theorem withConnected_congr {l l' : List UserServerData}
    (hl : (l.filter fun d => d.name = u) = l'.filter fun d => d.name = u) :
    userView cwd u (m.withConnected l) = userView cwd u (m'.withConnected l') := by
  have hentries := around_of_view h
  have hremovals := congrArg UserView.removals h
  unfold userView Machine.withConnected at *
  simp only [UserView.mk.injEq] at hremovals ⊢
  exact ⟨hentries, hremovals, hl⟩

/-- `open` with `O_CREAT`. -/
theorem openCreate_congr {c : SysCalls} (b : Bool) {path : Bytes}
    (hpath : Inside cwd (userPos cwd u) path) (hregional : c.Regional cwd (userPos cwd u))
    (hle : c ≤ posix cwd) :
    (perform cwd ⟨c, b⟩ (.openCreate path) m).1 = (perform cwd ⟨c, b⟩ (.openCreate path) m').1 ∧
      userView cwd u (perform cwd ⟨c, b⟩ (.openCreate path) m).2 =
        userView cwd u (perform cwd ⟨c, b⟩ (.openCreate path) m').2 := by
  have hopen := hregional.openCreate hpath (around_of_view h)
  unfold perform
  simp only
  cases ho : c.openCreate m.store.tree path with
  | none =>
    cases ho' : c.openCreate m'.store.tree path with
    | none => exact ⟨rfl, h⟩
    | some r' =>
      rw [ho, ho'] at hopen
      cases hopen
  | some r =>
    cases ho' : c.openCreate m'.store.tree path with
    | none =>
      rw [ho, ho'] at hopen
      cases hopen
    | some r' =>
      obtain ⟨t, p⟩ := r
      obtain ⟨t', p'⟩ := r'
      rw [ho, ho'] at hopen
      obtain ⟨ht, rfl⟩ := Prod.mk.inj (Option.some.inj hopen)
      have hview := withTree_congr h ht
      exact ⟨congrArg some (opened_congr hview (hpath.of_openCreate hle ho)), hview⟩

/-- **A call about a user goes by the user's part**, whether it fails or not. -/
theorem perform_congr {c : SysCalls} (hc : c = .failing ∨ c = posix cwd) (b : Bool) {a : Call}
    (ha : Concerns cwd u a) :
    (perform cwd ⟨c, b⟩ a m).1 = (perform cwd ⟨c, b⟩ a m').1 ∧
      userView cwd u (perform cwd ⟨c, b⟩ a m).2 = userView cwd u (perform cwd ⟨c, b⟩ a m').2 := by
  have hregional : c.Regional cwd (userPos cwd u) := by
    rcases hc with rfl | rfl
    · exact regional_failing cwd _
    · exact regional_posix cwd _
  have hle : c ≤ posix cwd := by
    rcases hc with rfl | rfl
    · exact SysCalls.failing_le _
    · exact SysCalls.le_refl _
  have hentries := around_of_view h
  cases a with
  | isusrRegistered userName =>
    obtain rfl : userName = u := ha
    exact ⟨isusrRegistered_congr h hc, h⟩
  | findElementByname userName =>
    obtain rfl : userName = u := ha
    exact ⟨findElementByname_congr (records_of_view h), h⟩
  | addElement data =>
    refine ⟨rfl, withConnected_congr h ?_⟩
    unfold addElement
    rw [List.filter_append, List.filter_append, records_of_view h]
  | deleteElement userName =>
    obtain rfl : userName = u := ha
    refine ⟨rfl, withConnected_congr h ?_⟩
    rw [filter_deleteElement_self, filter_deleteElement_self, records_of_view h]
  | getElements => exact ha.elim
  | listGetSize => exact ha.elim
  | mkdir path => exact change_congr h (hregional.mkdir ha hentries)
  | opendir path => exact ⟨hregional.opendir ha hentries, h⟩
  | malloc path => exact ⟨hregional.malloc _ _ path, h⟩
  | stat path => exact ⟨hregional.stat ha hentries, h⟩
  | unlink path => exact change_congr h (hregional.unlink ha hentries)
  | rmdir path => exact change_congr h (hregional.rmdir ha hentries)
  | fileExists fileName path =>
    refine ⟨?_, h⟩
    change searchDirectory c m.store.tree path fileName =
      searchDirectory c m'.store.tree path fileName
    unfold searchDirectory
    rw [hregional.opendir ha hentries]
  | openCreate path => exact openCreate_congr h b ha hregional hle
  | write file data =>
    have hwrite : (c.write m.store.tree file.pos data).map (·.around (userPos cwd u)) =
        (c.write m'.store.tree file.pos data).map (·.around (userPos cwd u)) :=
      hregional.write hentries
    have halive := alive_congr h ha
    unfold perform
    simp only
    cases hw : c.write m.store.tree file.pos data with
    | none =>
      cases hw' : c.write m'.store.tree file.pos data with
      | none => exact ⟨rfl, h⟩
      | some t' =>
        rw [hw, hw'] at hwrite
        cases hwrite
    | some t =>
      cases hw' : c.write m'.store.tree file.pos data with
      | none =>
        rw [hw, hw'] at hwrite
        cases hwrite
      | some t' =>
        rw [hw, hw'] at hwrite
        refine ⟨rfl, ?_⟩
        simp only
        by_cases hd : m.Alive file
        · rw [if_pos hd, if_pos (halive.1 hd)]
          exact withTree_congr h (Option.some.inj hwrite)
        · rw [if_neg hd, if_neg (mt halive.2 hd)]
          exact h
  | remove path => exact change_congr h (hregional.remove ha hentries)
  | openDirectory path =>
    refine ⟨?_, h⟩
    change ((c.opendir m.store.tree path).bind fun _ =>
        (resolve cwd m.store.tree path).map m.opened) =
      (c.opendir m'.store.tree path).bind fun _ => (resolve cwd m'.store.tree path).map m'.opened
    rw [hregional.opendir ha hentries, Inside.resolve_congr ha hentries]
    cases hres : resolve cwd m'.store.tree path with
    | none => rfl
    | some p => rw [Option.map_some, Option.map_some, opened_congr h (Inside.of_resolve ha hres)]
  | countFiles directory => exact ⟨congrArg List.length (filesIn_congr h ha), h⟩
  | sendFiles directory => exact ⟨filesIn_congr h ha, h⟩

end Congr

/-- A call fails, or does what it does on a POSIX system. -/
theorem perform_choice {cwd : Pos} {env : Conditions} (henv : env.calls ≤ posix cwd) (a : Call)
    (m : Machine) : ∃ c, (c = .failing ∨ c = posix cwd) ∧
      perform cwd env a m = perform cwd ⟨c, env.allocated⟩ a m := by
  cases a with
  | isusrRegistered userName =>
    obtain ⟨c, hc, h⟩ := SysCalls.choice (fun c => c.opendir m.store.tree usersDirectory) rfl
      fun _ h => SysCalls.opendir_of_le henv h
    exact ⟨c, hc, by simp only [perform, isusrRegistered, searchDirectory, h]⟩
  | fileExists fileName path =>
    obtain ⟨c, hc, h⟩ := SysCalls.choice (fun c => c.opendir m.store.tree path) rfl fun _ h =>
      SysCalls.opendir_of_le henv h
    exact ⟨c, hc, by simp only [perform, fileExists, searchDirectory, h]⟩
  | mkdir path =>
    obtain ⟨c, hc, h⟩ := SysCalls.choice (fun c => c.mkdir m.store.tree path) rfl fun _ h =>
      SysCalls.mkdir_of_le henv h
    exact ⟨c, hc, congrArg m.change h⟩
  | unlink path =>
    obtain ⟨c, hc, h⟩ := SysCalls.choice (fun c => c.unlink m.store.tree path) rfl fun _ h =>
      SysCalls.unlink_of_le henv h
    exact ⟨c, hc, congrArg m.change h⟩
  | rmdir path =>
    obtain ⟨c, hc, h⟩ := SysCalls.choice (fun c => c.rmdir m.store.tree path) rfl fun _ h =>
      SysCalls.rmdir_of_le henv h
    exact ⟨c, hc, congrArg m.change h⟩
  | remove path =>
    obtain ⟨c, hc, h⟩ := SysCalls.choice (fun c => c.remove m.store.tree path) rfl fun _ h =>
      SysCalls.remove_of_le henv h
    exact ⟨c, hc, congrArg m.change h⟩
  | opendir path =>
    obtain ⟨c, hc, h⟩ := SysCalls.choice (fun c => c.opendir m.store.tree path) rfl fun _ h =>
      SysCalls.opendir_of_le henv h
    exact ⟨c, hc, congrArg (·, m) h⟩
  | stat path =>
    obtain ⟨c, hc, h⟩ := SysCalls.choice (fun c => c.stat m.store.tree path) rfl fun _ h =>
      SysCalls.stat_of_le henv h
    exact ⟨c, hc, congrArg (·, m) h⟩
  | openCreate path =>
    obtain ⟨c, hc, h⟩ := SysCalls.choice (fun c => c.openCreate m.store.tree path) rfl fun _ h =>
      SysCalls.openCreate_of_le henv h
    exact ⟨c, hc, by simp only [perform, h]⟩
  | openDirectory path =>
    obtain ⟨c, hc, h⟩ := SysCalls.choice (fun c => c.opendir m.store.tree path) rfl fun _ h =>
      SysCalls.opendir_of_le henv h
    exact ⟨c, hc, by simp only [perform, h]⟩
  | write file data =>
    obtain ⟨c, hc, h⟩ := SysCalls.choice (fun c => c.write m.store.tree file.pos data) rfl
      fun _ h => SysCalls.write_of_le henv h
    exact ⟨c, hc, by simp only [perform, h]⟩
  | malloc path =>
    cases h : env.calls.malloc m.store.tree path with
    | false => exact ⟨.failing, .inl rfl, congrArg (·, m) h⟩
    | true => exact ⟨posix cwd, .inr rfl, congrArg (·, m) h⟩
  | _ => exact ⟨posix cwd, .inr rfl, rfl⟩

/-! ## The other users -/

section Frame

variable {cwd : Pos} {u v : Bytes} (hne : v ≠ u) {m : Machine}
include hne

theorem apart_userPos : Apart (userPos cwd u) (userPos cwd v) := apart_snoc (Ne.symm hne)

omit hne in
theorem view_withTree {t : Tree}
    (ht : t.around (userPos cwd v) = m.store.tree.around (userPos cwd v)) :
    userView cwd v (m.withTree t) = userView cwd v m := by
  have hremovals : (userView cwd v (m.withTree t)).removals = (userView cwd v m).removals := by
    funext q
    unfold userView
    simp only
    by_cases hq : userPos cwd v <+: q
    · rw [if_pos hq, if_pos hq]
      refine if_neg ?_
      rintro ⟨hsome, hnone⟩
      rw [Tree.get_congr ht (.inr hq)] at hnone
      rw [hnone] at hsome
      cases hsome
    · rw [if_neg hq, if_neg hq]
  unfold userView at hremovals ⊢
  simp only [Machine.tree_withTree, Machine.connected_withTree, UserView.mk.injEq]
  exact ⟨ht, hremovals, trivial⟩

omit hne in
theorem view_change {o : Option Tree}
    (ho : ∀ t, o = some t → t.around (userPos cwd v) = m.store.tree.around (userPos cwd v)) :
    userView cwd v (m.change o).2 = userView cwd v m := by
  cases o with
  | none => rfl
  | some t => exact view_withTree (ho t rfl)

omit hne in
theorem view_withConnected {l : List UserServerData}
    (hl : (l.filter fun d => d.name = v) = m.store.connected.filter fun d => d.name = v) :
    userView cwd v (m.withConnected l) = userView cwd v m := by
  unfold userView Machine.withConnected
  simp only [UserView.mk.injEq]
  exact ⟨trivial, trivial, hl⟩

/-- **A call about a user leaves the others' parts.** -/
theorem perform_frame {env : Conditions} (henv : env.calls ≤ posix cwd) {a : Call}
    (ha : Concerns cwd u a) :
    userView cwd v (perform cwd env a m).2 = userView cwd v m := by
  have hapart : Apart (userPos cwd u) (userPos cwd v) := apart_userPos hne
  cases a with
  | addElement data =>
    refine view_withConnected ?_
    unfold addElement
    have hdata : ¬data.name = v := fun hv => hne (hv.symm.trans ha)
    rw [List.filter_append, List.filter_cons_of_neg (by simpa using hdata), List.filter_nil,
      List.append_nil]
  | deleteElement userName =>
    obtain rfl : userName = u := ha
    exact view_withConnected (filter_deleteElement_of_ne hne _)
  | mkdir path => exact view_change fun t ht => around_of_mkdir henv hapart ha ht
  | unlink path => exact view_change fun t ht => around_of_unlink henv hapart ha ht
  | rmdir path => exact view_change fun t ht => around_of_rmdir henv hapart ha ht
  | remove path => exact view_change fun t ht => around_of_remove henv hapart ha ht
  | openCreate path =>
    unfold perform
    simp only
    cases ho : env.calls.openCreate m.store.tree path with
    | none => rfl
    | some r =>
      obtain ⟨t, p⟩ := r
      exact view_withTree (around_of_openCreate henv hapart ha ho)
  | write file data =>
    unfold perform
    simp only
    cases hw : env.calls.write m.store.tree file.pos data with
    | none => rfl
    | some t =>
      simp only
      split
      · exact view_withTree (around_of_write henv hapart ha hw)
      · rfl
  | _ => rfl

end Frame

end DistributedSystems.Lab.Preemptive
