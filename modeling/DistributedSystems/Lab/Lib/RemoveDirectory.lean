import DistributedSystems.Lab.Lib.Auxiliary

/-!
# What `remove_directory` removes

With any calls failing, a removal takes away entries at and below the position its path leads to and
nothing else, and it answers 0 exactly when that position is gone (`removeDirectory_removal`). With
no call failing, a directory whose path ends in an ordinary name is removed
(`removeDirectory_succeeds`), and the first entry of any directory is removed even if the rest of
the removal then fails (`removeDirectory_changes`).
-/

namespace DistributedSystems.Lab

open Fs

/-- What a removal at `p` may do to the tree `t`, whatever fails in it. -/
structure Removal (t : Tree) (p : Pos) (r : Int × Tree) : Prop where
  result : r.1 = 0 ∨ r.1 = -1
  le : r.2 ≤ t
  frame : ∀ q, ¬ p <+: q → r.2.get q = t.get q
  gone : r.1 = 0 → r.2.get p = none
  kept : r.1 ≠ 0 → r.2.get p = t.get p

/-- A removal of an entry of `p` only prunes below `p`. -/
theorem Removal.prunedBelow {t : Tree} {p : Pos} {n : Bytes} {r : Int × Tree}
    (h : Removal t (p ++ [n]) r) : PrunedBelow p r.2 t :=
  ⟨h.le, fun q hq => h.frame q fun hp => hq ((below_snoc p n).of_isPrefix hp)⟩

/-- A removal of an entry leaves the other entries of its directory. -/
theorem Removal.get_sibling {t : Tree} {p : Pos} {n m : Bytes} {r : Int × Tree}
    (h : Removal t (p ++ [n]) r) (hne : n ≠ m) : r.2.get (p ++ [m]) = t.get (p ++ [m]) := by
  apply h.frame
  intro hp
  have heq := hp.eq_of_length (by simp)
  exact hne (by simpa using heq)

/-- A failure after some of what is below `p` was removed. -/
theorem Removal.of_pruned {t u : Tree} {p : Pos} (h : PrunedBelow p u t) : Removal t p (-1, u) :=
  ⟨Or.inr rfl, h.le, fun q hq => h.frame q fun hb => hq hb.1, fun h => absurd h (by simp),
    fun _ => h.get_self⟩

/-- A call that failed before anything was removed. -/
theorem Removal.failed (t : Tree) (p : Pos) : Removal t p (-1, t) := .of_pruned (.refl p t)

theorem Removal.erased {t t' : Tree} {p : Pos} (hp : p ≠ []) (h : t.erase p = some t') :
    Removal t p (0, t') where
  result := Or.inl rfl
  le := Tree.erase_le hp h
  frame q hq := by
    have hne : q ≠ p := by rintro rfl; exact hq (List.prefix_refl _)
    rw [Tree.get_erase hp h, if_neg hne]
  gone _ := by rw [Tree.get_erase hp h, if_pos rfl]
  kept h0 := absurd rfl h0

/-- What is below `p` is removed, and then `p`. -/
theorem Removal.after_pruned {t u v : Tree} {p : Pos} (hpr : PrunedBelow p u t)
    (h : Removal u p (0, v)) : Removal t p (0, v) :=
  ⟨h.result, le_trans h.le hpr.le,
    fun q hq => (h.frame q hq).trans (hpr.frame q fun hb => hq hb.1), h.gone,
    fun h0 => absurd rfl h0⟩

theorem listing_names {t : Tree} {p : Pos} :
    ∀ n ∈ listing t p, n = dot ∨ n = dotDot ∨ ValidName n := by
  intro n hn
  rcases List.mem_cons.1 hn with rfl | hn
  · exact Or.inl rfl
  rcases List.mem_cons.1 hn with rfl | hn
  · exact Or.inr (Or.inl rfl)
  · obtain ⟨e, he⟩ := Option.isSome_iff_exists.1 (Tree.mem_names.1 hn)
    exact Or.inr (Or.inr (Tree.validName_of_get he))

theorem validName_of_not_dots {n : Bytes} (h : n = dot ∨ n = dotDot ∨ ValidName n)
    (hdots : ¬ (n = dot ∨ n = dotDot)) : ValidName n := by
  rcases h with h | h | h
  · exact absurd (Or.inl h) hdots
  · exact absurd (Or.inr h) hdots
  · exact h

theorem not_dots_of_validName {n : Bytes} (hn : ValidName n) : ¬ (n = dot ∨ n = dotDot) :=
  fun h => h.elim hn.2.2.2.1 hn.2.2.2.2

/-- A directory has no entry of the names that are skipped. -/
theorem get_dots (t : Tree) (p : Pos) {n : Bytes} (hdots : n = dot ∨ n = dotDot) :
    t.get (p ++ [n]) = none := by
  cases hg : t.get (p ++ [n]) with
  | none => rfl
  | some e => exact absurd hdots (not_dots_of_validName (Tree.validName_of_get hg))

/-- Where the path of an entry leads to, in what is left of the tree. -/
theorem eq_snoc_of_resolve {cwd : Pos} {t u : Tree} (hut : u ≤ t) {path : Bytes} (hpath : path ≠ [])
    {p q : Pos} (hp : resolve cwd t path = some p) {n : Bytes} (hn : ValidName n)
    (hq : resolve cwd u (path ++ slash :: n) = some q) : q = p ++ [n] := by
  rw [resolve_append_slash hpath hn.2.1] at hq
  obtain ⟨p', hp', hstep⟩ := Option.bind_eq_some_iff.1 hq
  have hpp' : p' = p := by
    unfold resolve at hp hp'
    rw [if_neg hpath] at hp hp'
    exact Option.some.inj ((walk_mono hut hp').symm.trans hp)
  subst hpp'
  rw [step_of_validName hn] at hstep
  split at hstep
  · exact (Option.some.inj hstep).symm
  · cases hstep

section Safety

variable {cwd : Pos} {c : SysCalls} (hc : c ≤ posix cwd)

include hc

/-- `rmdir` erases the position its path leads to, also when a smaller tree than the one the path
was resolved in is left. -/
theorem rmdir_erases {t u v : Tree} (hut : u ≤ t) {path : Bytes} {p : Pos}
    (hp : resolve cwd t path = some p) (h : c.rmdir u path = some v) :
    p ≠ [] ∧ u.erase p = some v := by
  obtain ⟨q, n, hl, hd, he⟩ := posix.rmdir_eq_some_iff.1 (SysCalls.rmdir_of_le hc h)
  have hn := Tree.validName_of_get hd
  have hw := walk_of_leaf hn hl (Option.isSome_of_eq_some hd)
  have hwt := walk_mono hut (walk_of_stripTrailing hw hd)
  unfold resolve at hp
  split at hp
  · cases hp
  · rw [hwt] at hp
    obtain rfl := Option.some.inj hp
    exact ⟨by simp, he⟩

theorem rmdir_le {t u v : Tree} (hut : u ≤ t) {path : Bytes} {p : Pos}
    (hp : resolve cwd t path = some p) (h : c.rmdir u path = some v) : v ≤ u := by
  obtain ⟨hne, he⟩ := rmdir_erases hc hut hp h
  exact Tree.erase_le hne he

theorem unlink_erases {t u : Tree} {path : Bytes} {p : Pos} (hp : resolve cwd t path = some p)
    (h : c.unlink t path = some u) : p ≠ [] ∧ t.erase p = some u := by
  obtain ⟨q, n, old, hl, hf, he⟩ := posix.unlink_eq_some_iff.1 (SysCalls.unlink_of_le hc h)
  have hw := walk_of_leaf (Tree.validName_of_get hf) hl (Option.isSome_of_eq_some hf)
  unfold resolve at hp
  split at hp
  · cases hp
  · rw [hw] at hp
    obtain rfl := Option.some.inj hp
    exact ⟨by simp, he⟩

/-- One turn of the loop removes at most the entry it is at, given that the recursion does. -/
theorem removeEntry_removal {recurse : Tree → Bytes → Int × Tree} {t : Tree} {buf : Bytes}
    {p : Pos} (hp : ∀ q, resolve cwd t buf = some q → q = p)
    (hrec : t.get p = some .dir → resolve cwd t buf = some p → Removal t p (recurse t buf)) :
    Removal t p (removeEntry c recurse t buf) := by
  unfold removeEntry
  split
  · cases hs : c.stat t buf with
    | none => exact .failed t p
    | some e =>
      obtain ⟨q, hq, he⟩ := posix.stat_eq_some_iff.1 (SysCalls.stat_of_le hc hs)
      obtain rfl := hp q hq
      cases e with
      | dir => exact hrec he hq
      | file old =>
        simp only
        split
        · exact .failed t q
        · rename_i t' hu
          obtain ⟨hne, her⟩ := unlink_erases hc hq hu
          exact .erased hne her
  · exact .failed t p

/-- The loop only prunes below `p`. -/
theorem removeEntries_prunedBelow {recurse : Tree → Bytes → Int × Tree} {path : Bytes}
    (hpath : path ≠ []) {t : Tree} {p : Pos} (hp : resolve cwd t path = some p)
    (hrec : ∀ u q, u ≤ t → ∀ n, u.get q = some .dir →
      resolve cwd u (path ++ slash :: n) = some q → Removal u q (recurse u (path ++ slash :: n)))
    {ns : List Bytes} (hns : ∀ n ∈ ns, n = dot ∨ n = dotDot ∨ ValidName n) {u : Tree}
    (hu : u ≤ t) :
    let r := removeEntries c recurse path ns u
    (r.1 = 0 ∨ r.1 = -1) ∧ PrunedBelow p r.2 u := by
  induction ns generalizing u with
  | nil => exact ⟨Or.inl rfl, .refl p u⟩
  | cons n ns ih =>
    have hns' : ∀ m ∈ ns, m = dot ∨ m = dotDot ∨ ValidName m :=
      fun m hm => hns m (List.mem_cons_of_mem _ hm)
    simp only [removeEntries]
    by_cases hdots : n = dot ∨ n = dotDot
    · rw [if_pos hdots]
      exact ih hns' hu
    · rw [if_neg hdots]
      have hn : ValidName n := validName_of_not_dots (hns n List.mem_cons_self) hdots
      have hone : Removal u (p ++ [n]) (removeEntry c recurse u (path ++ slash :: n)) :=
        removeEntry_removal hc (fun q hq => eq_snoc_of_resolve hu hpath hp hn hq)
          fun hd hq => hrec u _ hu n hd hq
      split
      · obtain ⟨hres, hpr⟩ := ih hns' (le_trans hone.le hu)
        exact ⟨hres, hpr.trans hone.prunedBelow⟩
      · exact ⟨hone.result, hone.prunedBelow⟩

/-- **Safety of the removal**, by induction on the depth that the fuel allows: each level prunes
below its own position and erases that position last. -/
theorem removeDirectoryAux_removal (fuel : Nat) {t : Tree} {path : Bytes} {p : Pos}
    (hpath : path ≠ []) (hp : resolve cwd t path = some p) :
    Removal t p (removeDirectoryAux c fuel t path) := by
  induction fuel generalizing t path p with
  | zero => exact .failed t p
  | succ fuel ih =>
    unfold removeDirectoryAux
    cases ho : c.opendir t path with
    | none => exact .failed t p
    | some entries =>
      obtain ⟨q, hq, -, rfl⟩ := posix.opendir_eq_some_iff.1 (SysCalls.opendir_of_le hc ho)
      obtain rfl : p = q := Option.some.inj (hp.symm.trans hq)
      have hloop := removeEntries_prunedBelow hc hpath hp
        (fun u q _ n _ hres => ih (by simp) hres)
        (listing_names (t := t) (p := p)) (le_refl t)
      simp only
      generalize removeEntries c (removeDirectoryAux c fuel) path (listing t p) t = r at hloop ⊢
      obtain ⟨hres, hpr⟩ := hloop
      split
      · split
        · exact .of_pruned hpr
        · rename_i t' hrm
          obtain ⟨hne, her⟩ := rmdir_erases hc hpr.le hp hrm
          exact .after_pruned hpr (.erased hne her)
      · rename_i h0
        have hr : r = (-1, r.2) := Prod.ext (hres.resolve_left h0) rfl
        rw [hr]
        exact .of_pruned hpr

theorem removeDirectory_removal {t : Tree} {path : Bytes} {p : Pos} (hpath : path ≠ [])
    (hp : resolve cwd t path = some p) : Removal t p (removeDirectory c t path) :=
  removeDirectoryAux_removal hc _ hpath hp

/-- A path that does not lead to a directory is not removed. -/
theorem removeDirectory_of_not_dir {t : Tree} {path : Bytes}
    (h : ∀ p, resolve cwd t path = some p → t.get p ≠ some .dir) :
    removeDirectory c t path = (-1, t) := by
  have hnone : c.opendir t path = none := by
    cases ho : c.opendir t path with
    | none => rfl
    | some entries =>
      obtain ⟨p, hp, hd, -⟩ := posix.opendir_eq_some_iff.1 (SysCalls.opendir_of_le hc ho)
      exact absurd hd (h p hp)
  simp only [removeDirectory, removeDirectoryAux, hnone]

end Safety

/-! ## Removals that nothing refuses -/

section Success

variable {cwd : Pos}

theorem removeEntries_listing (c : SysCalls) (recurse : Tree → Bytes → Int × Tree) (path : Bytes)
    (t : Tree) (p : Pos) (u : Tree) :
    removeEntries c recurse path (listing t p) u = removeEntries c recurse path (t.names p) u := by
  simp [listing, removeEntries]

theorem ends_append_slash (path : Bytes) {n : Bytes} (hn : ValidName n) :
    ∃ cs m, components (path ++ slash :: n) = cs ++ [m] ∧ ValidName m :=
  ⟨components path, n, by rw [components_append_slash, components_of_not_mem hn.2.1], hn⟩

theorem leaf_of_resolve {t : Tree} {path : Bytes} {q : Pos} {cs : List Bytes} {n : Bytes}
    (hcs : components path = cs ++ [n]) (hn : ValidName n) (hq : resolve cwd t path = some q) :
    ∃ p, q = p ++ [n] ∧ leaf t (origin cwd path) (components path) = some (p, n) := by
  unfold resolve at hq
  split at hq
  · cases hq
  · rw [hcs] at hq ⊢
    exact leaf_of_walk hn hq

/-- `unlink` takes a file by a path that ends in its name. -/
theorem unlink_succeeds {t : Tree} {path : Bytes} {q : Pos} {old : Bytes}
    (hends : ∃ cs n, components path = cs ++ [n] ∧ ValidName n) (hq : resolve cwd t path = some q)
    (he : t.get q = some (.file old)) : ∃ u, (posix cwd).unlink t path = some u := by
  obtain ⟨cs, n, hcs, hn⟩ := hends
  obtain ⟨p, rfl, hl⟩ := leaf_of_resolve hcs hn hq
  have hnames : t.names (p ++ [n]) = [] :=
    Tree.names_of_not_dir fun hd => by rw [he] at hd; cases hd
  obtain ⟨u, hu⟩ := Option.isSome_iff_exists.1 (Tree.erase_isSome_iff.2 hnames)
  exact ⟨u, posix.unlink_eq_some_iff.2 ⟨p, n, old, hl, he, hu⟩⟩

/-- `rmdir` takes an empty directory by a path that ends in its name. -/
theorem rmdir_succeeds {t : Tree} {path : Bytes} {q : Pos}
    (hends : ∃ cs n, components path = cs ++ [n] ∧ ValidName n) (hq : resolve cwd t path = some q)
    (hd : t.get q = some .dir) (hempty : t.names q = []) :
    ∃ u, (posix cwd).rmdir t path = some u := by
  obtain ⟨cs, n, hcs, hn⟩ := hends
  obtain ⟨p, rfl, hl⟩ := leaf_of_resolve hcs hn hq
  obtain ⟨u, hu⟩ := Option.isSome_iff_exists.1 (Tree.erase_isSome_iff.2 hempty)
  refine ⟨u, posix.rmdir_eq_some_iff.2 ⟨p, n, ?_, hd, hu⟩⟩
  rw [hcs, stripTrailing_snoc hn.1, ← hcs]
  exact hl

/-- A directory of which every entry is gone is empty. -/
theorem names_eq_nil_of_pruned {t u : Tree} {p : Pos} (hpr : PrunedBelow p u t)
    (hgone : ∀ n ∈ t.names p, u.get (p ++ [n]) = none) : u.names p = [] := by
  rw [Tree.names_eq_nil_iff]
  intro n
  cases hg : u.get (p ++ [n]) with
  | none => rfl
  | some e =>
    have hmem : n ∈ t.names p := Tree.mem_names.2 (Option.isSome_of_eq_some (hpr.le _ _ hg))
    rw [hgone n hmem] at hg
    cases hg

theorem removeEntry_succeeds {recurse : Tree → Bytes → Int × Tree} {t : Tree} {buf : Bytes}
    {q : Pos} {e : Entry} (hends : ∃ cs n, components buf = cs ++ [n] ∧ ValidName n)
    (hq : resolve cwd t buf = some q) (he : t.get q = some e)
    (hrec : e = .dir → (recurse t buf).1 = 0) :
    (removeEntry (posix cwd) recurse t buf).1 = 0 := by
  have hs : (posix cwd).stat t buf = some e := posix.stat_eq_some_iff.2 ⟨q, hq, he⟩
  have hm : (posix cwd).malloc t buf = true := rfl
  unfold removeEntry
  rw [if_pos hm, hs]
  cases e with
  | dir => exact hrec rfl
  | file old =>
    obtain ⟨u, hu⟩ := unlink_succeeds hends hq he
    simp only [hu]

/-- The loop clears the entries it is given. Each turn removes its own entry and leaves the later
ones, so every turn starts from a tree in which its entry is still there. -/
theorem removeEntries_succeeds (recurse : Tree → Bytes → Int × Tree) {path : Bytes}
    (hpath : path ≠ []) {t : Tree} {p : Pos} (hst : Steady cwd t path p)
    (hrem : ∀ u q, u ≤ t → ∀ n, u.get q = some .dir →
      resolve cwd u (path ++ slash :: n) = some q → Removal u q (recurse u (path ++ slash :: n)))
    (hrec : ∀ u n, PrunedBelow p u t → u.get (p ++ [n]) = some .dir →
      (recurse u (path ++ slash :: n)).1 = 0)
    {ns : List Bytes} (hnd : ns.Nodup) {u : Tree} (hu : PrunedBelow p u t)
    (hns : ∀ n ∈ ns, (u.get (p ++ [n])).isSome) :
    let r := removeEntries (posix cwd) recurse path ns u
    r.1 = 0 ∧ PrunedBelow p r.2 u ∧ ∀ n ∈ ns, r.2.get (p ++ [n]) = none := by
  induction ns generalizing u with
  | nil => exact ⟨rfl, .refl p u, by simp⟩
  | cons n ns ih =>
    rw [List.nodup_cons] at hnd
    obtain ⟨e, he⟩ := Option.isSome_iff_exists.1 (hns n List.mem_cons_self)
    have hn := Tree.validName_of_get he
    have hdots := not_dots_of_validName hn
    have hq : resolve cwd u (path ++ slash :: n) = some (p ++ [n]) :=
      ((hst.pruned hu).snoc hpath he).resolve_eq
    have hone : Removal u (p ++ [n])
        (removeEntry (posix cwd) recurse u (path ++ slash :: n)) := by
      refine removeEntry_removal (SysCalls.le_refl _) ?_ fun hd hq' => hrem u _ hu.le n hd hq'
      intro q hq'
      exact Option.some.inj (hq'.symm.trans hq)
    have h0 : (removeEntry (posix cwd) recurse u (path ++ slash :: n)).1 = 0 :=
      removeEntry_succeeds (ends_append_slash path hn) hq he fun hdir => hrec u n hu (hdir ▸ he)
    simp only [removeEntries, if_neg hdots, h0, if_true]
    have hlater : ∀ m ∈ ns,
        ((removeEntry (posix cwd) recurse u (path ++ slash :: n)).2.get (p ++ [m])).isSome := by
      intro m hm
      rw [hone.get_sibling fun hnm => hnd.1 (hnm ▸ hm)]
      exact hns m (List.mem_cons_of_mem _ hm)
    obtain ⟨hr0, hpr, hgone⟩ := ih hnd.2 (hone.prunedBelow.trans hu) hlater
    refine ⟨hr0, hpr.trans hone.prunedBelow, fun m hm => ?_⟩
    rcases List.mem_cons.1 hm with rfl | hm
    · exact Tree.get_eq_none_of_le hpr.le (hone.gone h0)
    · exact hgone m hm

/-- **A removal that nothing refuses succeeds**, by induction on the fuel, which bounds the depth
of the tree below `p`. -/
theorem removeDirectoryAux_succeeds (fuel : Nat) {t : Tree} {path : Bytes} {p : Pos}
    (hpath : path ≠ []) (hends : ∃ cs n, components path = cs ++ [n] ∧ ValidName n)
    (hst : Steady cwd t path p) (hd : t.get p = some .dir)
    (hdepth : ∀ q e, t.get q = some e → p <+: q → q.length < p.length + fuel) :
    (removeDirectoryAux (posix cwd) fuel t path).1 = 0 := by
  induction fuel generalizing t path p with
  | zero => exact absurd (hdepth p _ hd (List.prefix_refl p)) (by omega)
  | succ fuel ih =>
    have ho : (posix cwd).opendir t path = some (listing t p) :=
      posix.opendir_eq_some_iff.2 ⟨p, hst.resolve_eq, hd, rfl⟩
    have hloop := removeEntries_succeeds (removeDirectoryAux (posix cwd) fuel) hpath hst
      (fun u q _ n _ hres => removeDirectoryAux_removal (SysCalls.le_refl _) fuel (by simp) hres)
      (fun u n hu hdn => by
        have hn := Tree.validName_of_get hdn
        apply ih (by simp) (ends_append_slash path hn) ((hst.pruned hu).snoc hpath hdn) hdn
        intro q e he hpq
        have := hdepth q e (hu.le q e he) ((List.prefix_append _ _).trans hpq)
        rw [List.length_append, List.length_singleton]
        omega)
      (t.names_nodup p) (.refl p t) fun n hn => Tree.mem_names.1 hn
    simp only [removeDirectoryAux, ho, removeEntries_listing]
    generalize removeEntries (posix cwd) (removeDirectoryAux (posix cwd) fuel) path (t.names p) t
      = r at hloop
    obtain ⟨h0, hpr, hgone⟩ := hloop
    -- nothing is left in the directory, so `rmdir` takes it
    obtain ⟨v, hv⟩ := rmdir_succeeds hends (hst _ hpr) (hpr.get_self.trans hd)
      (names_eq_nil_of_pruned hpr hgone)
    simp only [h0, if_true, hv]

theorem removeDirectory_succeeds {t : Tree} {path : Bytes} {p : Pos} (hpath : path ≠ [])
    (hends : ∃ cs n, components path = cs ++ [n] ∧ ValidName n) (hst : Steady cwd t path p)
    (hd : t.get p = some .dir) : (removeDirectory (posix cwd) t path).1 = 0 := by
  apply removeDirectoryAux_succeeds _ hpath hends hst hd
  intro q e he _
  have := Tree.length_le_of_get he
  omega

/-- The first entry of a directory goes, whatever becomes of the rest of the removal. -/
theorem removeDirectory_changes {t : Tree} {path : Bytes} {p : Pos} (hpath : path ≠ [])
    (hp : resolve cwd t path = some p) (hd : t.get p = some .dir) {n : Bytes} {ns : List Bytes}
    (hns : t.names p = n :: ns) (hst : Steady cwd t (path ++ slash :: n) (p ++ [n])) :
    (removeDirectory (posix cwd) t path).2.get (p ++ [n]) = none := by
  have ho : (posix cwd).opendir t path = some (listing t p) :=
    posix.opendir_eq_some_iff.2 ⟨p, hp, hd, rfl⟩
  have hmem : n ∈ t.names p := hns ▸ List.mem_cons_self
  obtain ⟨e, he⟩ := Option.isSome_iff_exists.1 (Tree.mem_names.1 hmem)
  have hn := Tree.validName_of_get he
  have hdots := not_dots_of_validName hn
  have hrem : ∀ (u : Tree) (q : Pos), u ≤ t → ∀ m, u.get q = some .dir →
      resolve cwd u (path ++ slash :: m) = some q →
      Removal u q (removeDirectoryAux (posix cwd) t.entries.length u (path ++ slash :: m)) :=
    fun u q _ m _ hres => removeDirectoryAux_removal (SysCalls.le_refl _) _ (by simp) hres
  have hone : Removal t (p ++ [n]) (removeEntry (posix cwd)
      (removeDirectoryAux (posix cwd) t.entries.length) t (path ++ slash :: n)) := by
    refine removeEntry_removal (SysCalls.le_refl _) ?_ fun hd' hq' => hrem t _ (le_refl t) n hd' hq'
    intro q hq'
    exact Option.some.inj (hq'.symm.trans hst.resolve_eq)
  have h0 : (removeEntry (posix cwd) (removeDirectoryAux (posix cwd) t.entries.length) t
      (path ++ slash :: n)).1 = 0 := by
    apply removeEntry_succeeds (ends_append_slash path hn) hst.resolve_eq he
    intro hdir
    apply removeDirectoryAux_succeeds _ (by simp) (ends_append_slash path hn) hst (hdir ▸ he)
    intro q e' hq' _
    have := Tree.length_le_of_get hq'
    rw [List.length_append, List.length_singleton]
    omega
  have hrest := removeEntries_prunedBelow (SysCalls.le_refl _) hpath hp hrem
    (fun m (hm : m ∈ ns) => Or.inr (Or.inr ?_)) hone.le
  · have hloop : removeEntries (posix cwd) (removeDirectoryAux (posix cwd) t.entries.length) path
        (listing t p) t = removeEntries (posix cwd)
          (removeDirectoryAux (posix cwd) t.entries.length) path ns
          (removeEntry (posix cwd) (removeDirectoryAux (posix cwd) t.entries.length) t
            (path ++ slash :: n)).2 := by
      rw [removeEntries_listing, hns]
      simp only [removeEntries, if_neg hdots, h0, if_true]
    simp only [removeDirectory, removeDirectoryAux, ho, hloop]
    generalize removeEntries (posix cwd) (removeDirectoryAux (posix cwd) t.entries.length) path ns
      (removeEntry (posix cwd) (removeDirectoryAux (posix cwd) t.entries.length) t
        (path ++ slash :: n)).2 = r at hrest ⊢
    have hgone : r.2.get (p ++ [n]) = none :=
      Tree.get_eq_none_of_le hrest.2.le (hone.gone h0)
    split
    · split
      · exact hgone
      · rename_i t' hrm
        exact Tree.get_eq_none_of_le
          (rmdir_le (SysCalls.le_refl _) (le_trans hrest.2.le hone.le) hp hrm) hgone
    · exact hgone
  · have hm' : m ∈ t.names p := hns ▸ List.mem_cons_of_mem _ hm
    obtain ⟨e', he'⟩ := Option.isSome_iff_exists.1 (Tree.mem_names.1 hm')
    exact Tree.validName_of_get he'

end Success

end DistributedSystems.Lab
