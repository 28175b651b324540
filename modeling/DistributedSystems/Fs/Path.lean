import DistributedSystems.Fs.Tree
import Mathlib.Data.List.DropRight

/-!
# Path resolution

A path is walked component by component from the working directory, or from the root when it
starts with a slash. Every component, the empty one and the two dot names included, is looked up
in a directory; there are no symbolic links, so a position is all a walk has to remember.

`Steady` says that a path keeps leading to the same position whatever happens strictly below it.
That is what a removal which goes through the path over and over relies on.
-/

namespace DistributedSystems.Fs

/-- The components of a path. An empty one stands for two slashes in a row or for a slash at
either end. -/
def components (path : Bytes) : List Bytes := path.splitOn slash

/-- A slash divides the components. -/
theorem components_append_slash (a b : Bytes) :
    components (a ++ slash :: b) = components a ++ components b :=
  List.splitOn_append_cons_self a b

/-- Without a slash there is one component. -/
theorem components_of_not_mem {n : Bytes} (h : slash ∉ n) : components n = [n] :=
  List.splitOn_eq_singleton h

theorem components_ne_nil (path : Bytes) : components path ≠ [] :=
  List.splitOn_ne_nil _ _

/-! ## Walking -/

/-- One component of a path, looked up in the directory `p`. -/
def step (t : Tree) (p : Pos) (c : Bytes) : Option Pos :=
  if t.get p = some .dir then
    if c = [] ∨ c = dot then some p
    else if c = dotDot then some p.dropLast
    else if (t.get (p ++ [c])).isSome then some (p ++ [c])
    else none
  else none

def walk (t : Tree) (p : Pos) : List Bytes → Option Pos
  | [] => some p
  | c :: cs => (step t p c).bind (walk t · cs)

@[simp] theorem walk_nil (t : Tree) (p : Pos) : walk t p [] = some p := rfl

@[simp] theorem walk_cons (t : Tree) (p : Pos) (c : Bytes) (cs : List Bytes) :
    walk t p (c :: cs) = (step t p c).bind (walk t · cs) := rfl

/-- Components are walked one after the other. -/
theorem walk_append (t : Tree) (p : Pos) (cs ds : List Bytes) :
    walk t p (cs ++ ds) = (walk t p cs).bind (walk t · ds) := by
  induction cs generalizing p with
  | nil => rfl
  | cons c cs ih =>
    simp only [List.cons_append, walk_cons, Option.bind_assoc]
    congr 1
    funext q
    exact ih q

theorem walk_snoc (t : Tree) (p : Pos) (cs : List Bytes) (c : Bytes) :
    walk t p (cs ++ [c]) = (walk t p cs).bind (step t · c) := by
  simp [walk_append]

/-- A step happens in a directory. -/
theorem get_of_step {t : Tree} {p q : Pos} {c : Bytes} (h : step t p c = some q) :
    t.get p = some .dir := by
  unfold step at h
  split at h
  · assumption
  · cases h

/-- A plain name leads to the entry of that name, if there is one. -/
theorem step_of_validName {t : Tree} {p : Pos} {n : Bytes} (hn : ValidName n) :
    step t p n = if (t.get (p ++ [n])).isSome then some (p ++ [n]) else none := by
  unfold step
  have h1 : ¬ (n = [] ∨ n = dot) := by
    intro h
    exact h.elim hn.1 hn.2.2.2.1
  rw [if_neg h1, if_neg hn.2.2.2.2]
  split
  · rfl
  · rename_i hd
    have hnone : t.get (p ++ [n]) = none := by
      cases hg : t.get (p ++ [n]) with
      | none => rfl
      | some e => exact absurd (Tree.get_parent hg) hd
    simp [hnone]

theorem step_dot {t : Tree} {p : Pos} (hp : t.get p = some .dir) : step t p dot = some p := by
  simp [step, hp]

theorem step_nil {t : Tree} {p : Pos} (hp : t.get p = some .dir) : step t p [] = some p := by
  simp [step, hp]

/-- `..` leads to the parent, and the root is its own. -/
theorem step_dotDot {t : Tree} {p : Pos} (hp : t.get p = some .dir) :
    step t p dotDot = some p.dropLast := by
  simp [step, hp, show dotDot ≠ [] by decide, show dotDot ≠ dot by decide]

/-- Below a tree, a step leads where it led or fails. -/
theorem step_mono {t u : Tree} (h : t ≤ u) {p q : Pos} {c : Bytes} (hs : step t p c = some q) :
    step u p c = some q := by
  have hp := h p _ (get_of_step hs)
  unfold step at hs ⊢
  rw [if_pos (get_of_step hs)] at hs
  rw [if_pos hp]
  split at hs
  · rename_i h1; rw [if_pos h1]; exact hs
  · rename_i h1
    rw [if_neg h1]
    split at hs
    · rename_i h2; rw [if_pos h2]; exact hs
    · rename_i h2
      rw [if_neg h2]
      split at hs
      · rename_i h3
        obtain ⟨e, he⟩ := Option.isSome_iff_exists.1 h3
        rw [if_pos (Option.isSome_of_eq_some (h _ e he))]
        exact hs
      · cases hs

/-- A walk goes the same way in a larger tree. -/
theorem walk_mono {t u : Tree} (h : t ≤ u) {p q : Pos} {cs : List Bytes}
    (hw : walk t p cs = some q) : walk u p cs = some q := by
  induction cs generalizing p with
  | nil => exact hw
  | cons c cs ih =>
    rw [walk_cons] at hw ⊢
    obtain ⟨p', hs, hw⟩ := Option.bind_eq_some_iff.1 hw
    rw [step_mono h hs]
    exact ih hw

/-- A walk to a directory passes through directories. -/
theorem get_of_walk_append {t : Tree} {o q : Pos} {cs ds : List Bytes}
    (h : walk t o (cs ++ ds) = some q) (hq : t.get q = some .dir) :
    ∃ p, walk t o cs = some p ∧ t.get p = some .dir := by
  rw [walk_append] at h
  obtain ⟨p, hw, hrest⟩ := Option.bind_eq_some_iff.1 h
  refine ⟨p, hw, ?_⟩
  cases ds with
  | nil => obtain rfl := Option.some.inj hrest; exact hq
  | cons d ds =>
    obtain ⟨_, hs, -⟩ := Option.bind_eq_some_iff.1 hrest
    exact get_of_step hs

/-! ## Paths -/

/-- Where the walk of a path starts. -/
def origin (cwd : Pos) (path : Bytes) : Pos := if path.head? = some slash then [] else cwd

/-- The position that a path leads to. -/
def resolve (cwd : Pos) (t : Tree) (path : Bytes) : Option Pos :=
  if path = [] then none else walk t (origin cwd path) (components path)

/-- The directory and the last component of a path, for the calls that create or remove the
entry of that name. -/
def leaf (t : Tree) (p : Pos) (cs : List Bytes) : Option (Pos × Bytes) :=
  cs.getLast?.bind fun n => (walk t p cs.dropLast).bind fun q =>
    if t.get q = some .dir then some (q, n) else none

/-- The components without the empty ones at the end: slashes after a directory's name do not
count where the call expects a directory. -/
def stripTrailing (cs : List Bytes) : List Bytes := cs.rdropWhile (· = [])

theorem leaf_snoc (t : Tree) (p : Pos) (cs : List Bytes) (n : Bytes) :
    leaf t p (cs ++ [n]) =
      (walk t p cs).bind fun q => if t.get q = some .dir then some (q, n) else none := by
  simp [leaf]

/-- The last component of a path, and the directory that the others lead to. -/
theorem leaf_eq_some_iff {t : Tree} {p q : Pos} {cs : List Bytes} {n : Bytes} :
    leaf t p cs = some (q, n) ↔
      ∃ ds, cs = ds ++ [n] ∧ walk t p ds = some q ∧ t.get q = some .dir := by
  constructor
  · intro h
    induction cs using List.reverseRecOn with
    | nil => simp [leaf] at h
    | append_singleton ds m _ =>
      rw [leaf_snoc] at h
      obtain ⟨q', hw, hq⟩ := Option.bind_eq_some_iff.1 h
      split at hq
      · rename_i hd
        obtain ⟨rfl, rfl⟩ := Prod.mk.inj (Option.some.inj hq)
        exact ⟨ds, rfl, hw, hd⟩
      · cases hq
  · rintro ⟨ds, rfl, hw, hd⟩
    rw [leaf_snoc, hw, Option.bind_some, if_pos hd]

/-- A last component that is not empty stays. -/
theorem stripTrailing_snoc {cs : List Bytes} {n : Bytes} (hn : n ≠ []) :
    stripTrailing (cs ++ [n]) = cs ++ [n] :=
  List.rdropWhile_concat_neg _ _ _ (by simpa using hn)

/-- Slashes at the end are stripped. -/
theorem stripTrailing_snoc_nil (cs : List Bytes) :
    stripTrailing (cs ++ [[]]) = stripTrailing cs :=
  List.rdropWhile_concat_pos _ _ _ (by simp)

/-- The two parts of a path that a creating or removing call looks at lie on its walk. -/
theorem walk_of_leaf {t : Tree} {p q : Pos} {cs : List Bytes} {n : Bytes} (hn : ValidName n)
    (h : leaf t p cs = some (q, n)) (hg : (t.get (q ++ [n])).isSome) :
    walk t p cs = some (q ++ [n]) := by
  obtain ⟨ds, rfl, hw, -⟩ := leaf_eq_some_iff.1 h
  rw [walk_snoc, hw, Option.bind_some, step_of_validName hn, if_pos hg]

/-- A walk that ends in a valid name found it in the directory before it. -/
theorem leaf_of_walk {t : Tree} {o q : Pos} {cs : List Bytes} {n : Bytes} (hn : ValidName n)
    (h : walk t o (cs ++ [n]) = some q) :
    ∃ p, q = p ++ [n] ∧ leaf t o (cs ++ [n]) = some (p, n) := by
  rw [walk_snoc] at h
  obtain ⟨p, hw, hs⟩ := Option.bind_eq_some_iff.1 h
  refine ⟨p, ?_, ?_⟩
  · rw [step_of_validName hn] at hs
    split at hs
    · exact (Option.some.inj hs).symm
    · cases hs
  · rw [leaf_snoc, hw, Option.bind_some, if_pos (get_of_step hs)]

/-- A walk that arrives has gone through the directory before its last component. -/
theorem leaf_isSome_of_walk {t : Tree} {o q : Pos} {cs : List Bytes} (hcs : cs ≠ [])
    (h : walk t o cs = some q) : (leaf t o cs).isSome := by
  obtain ⟨ds, n, rfl⟩ := (List.eq_nil_or_concat' cs).resolve_left hcs
  rw [walk_snoc] at h
  obtain ⟨p, hw, hs⟩ := Option.bind_eq_some_iff.1 h
  exact Option.isSome_of_eq_some (leaf_eq_some_iff.2 ⟨ds, rfl, hw, get_of_step hs⟩)

/-- The slashes after a directory's name lead nowhere else. -/
theorem walk_of_stripTrailing {t : Tree} {o q : Pos} {cs : List Bytes}
    (h : walk t o (stripTrailing cs) = some q) (hq : t.get q = some .dir) :
    walk t o cs = some q := by
  induction cs using List.reverseRecOn with
  | nil => exact h
  | append_singleton cs n ih =>
    by_cases hn : n = []
    · subst hn
      rw [stripTrailing_snoc_nil] at h
      rw [walk_snoc, ih h, Option.bind_some, step_nil hq]
    · rwa [stripTrailing_snoc hn] at h

/-! ## Where a walk leads -/

/-- Where a walk of these components from `p` leads, if it gets there. -/
def target (p : Pos) : List Bytes → Pos
  | [] => p
  | c :: cs =>
    if c = [] ∨ c = dot then target p cs
    else if c = dotDot then target p.dropLast cs
    else target (p ++ [c]) cs

/-- A walk that gets there is where its components say. -/
theorem eq_target_of_walk {t : Tree} {p q : Pos} {cs : List Bytes} (h : walk t p cs = some q) :
    q = target p cs := by
  induction cs generalizing p with
  | nil => exact (Option.some.inj h).symm
  | cons c cs ih =>
    rw [walk_cons] at h
    obtain ⟨p', hs, hw⟩ := Option.bind_eq_some_iff.1 h
    unfold step at hs
    rw [if_pos (get_of_step hs)] at hs
    unfold target
    split at hs
    · rename_i hempty
      rw [if_pos hempty, ih hw, Option.some.inj hs]
    · rename_i hempty
      rw [if_neg hempty]
      split at hs
      · rename_i hdots
        rw [if_pos hdots, ih hw, Option.some.inj hs]
      · rename_i hdots
        rw [if_neg hdots]
        split at hs
        · rw [ih hw, Option.some.inj hs]
        · cases hs

/-- Slashes in a row count once. -/
theorem target_filter (p : Pos) (cs : List Bytes) :
    target p (cs.filter (· ≠ [])) = target p cs := by
  induction cs generalizing p with
  | nil => rfl
  | cons c cs ih =>
    by_cases hc : c = []
    · subst hc
      rw [List.filter_cons_of_neg (by simp), ih, target, if_pos (.inl rfl)]
    · rw [List.filter_cons_of_pos (by simpa using hc)]
      unfold target
      split
      · exact ih p
      · split
        · exact ih p.dropLast
        · exact ih (p ++ [c])

/-! ## Paths that stay good during a removal -/

/-- `q` is strictly below `p`. -/
def Below (p q : Pos) : Prop := p <+: q ∧ p ≠ q

theorem below_snoc (p : Pos) (n : Bytes) : Below p (p ++ [n]) :=
  ⟨List.prefix_append _ _, fun h => by simpa using congrArg List.length h⟩

/-- What is below stays below on the way down. -/
theorem Below.of_isPrefix {p q r : Pos} (h : Below p q) (hqr : q <+: r) : Below p r := by
  refine ⟨h.1.trans hqr, fun he => ?_⟩
  have h1 := h.1.length_le
  have h2 := hqr.length_le
  rw [← he] at h2
  exact h.2 (h.1.eq_of_length (Nat.le_antisymm h1 h2))

theorem Below.of_below_snoc {p q : Pos} {n : Bytes} (h : Below (p ++ [n]) q) : Below p q :=
  (below_snoc p n).of_isPrefix h.1

/-- `u` is `t` with some of what is strictly below `p` removed. -/
structure PrunedBelow (p : Pos) (u t : Tree) : Prop where
  le : u ≤ t
  frame : ∀ q, ¬ Below p q → u.get q = t.get q

namespace PrunedBelow

variable {p : Pos} {t u v : Tree}

theorem refl (p : Pos) (t : Tree) : PrunedBelow p t t := ⟨le_refl t, fun _ _ => rfl⟩

theorem trans (h : PrunedBelow p v u) (h' : PrunedBelow p u t) : PrunedBelow p v t :=
  ⟨le_trans h.le h'.le, fun q hq => (h.frame q hq).trans (h'.frame q hq)⟩

theorem of_snoc {n : Bytes} (h : PrunedBelow (p ++ [n]) u t) : PrunedBelow p u t :=
  ⟨h.le, fun q hq => h.frame q fun hb => hq hb.of_below_snoc⟩

theorem get_self (h : PrunedBelow p u t) : u.get p = t.get p := h.frame p fun hb => hb.2 rfl

end PrunedBelow

/-- The path leads to `p`, and still does when things strictly below `p` have been removed. -/
def Steady (cwd : Pos) (t : Tree) (path : Bytes) (p : Pos) : Prop :=
  ∀ u, PrunedBelow p u t → resolve cwd u path = some p

/-- A steady path resolves now. -/
theorem Steady.resolve_eq {cwd p : Pos} {t : Tree} {path : Bytes} (h : Steady cwd t path p) :
    resolve cwd t path = some p := h t (.refl p t)

/-- A steady path stays steady while entries below it are removed. -/
theorem Steady.pruned {cwd p : Pos} {t u : Tree} {path : Bytes} (h : Steady cwd t path p)
    (hu : PrunedBelow p u t) : Steady cwd u path p := fun v hv => h v (hv.trans hu)

theorem resolve_append_slash {cwd : Pos} {t : Tree} {path n : Bytes} (hpath : path ≠ [])
    (hn : slash ∉ n) :
    resolve cwd t (path ++ slash :: n) = (resolve cwd t path).bind (step t · n) := by
  have horigin : origin cwd (path ++ slash :: n) = origin cwd path := by
    cases path with
    | nil => exact absurd rfl hpath
    | cons b path => rfl
  rw [resolve, resolve, if_neg (by simp), if_neg hpath, horigin, components_append_slash,
    components_of_not_mem hn, walk_snoc]

/-- A steady path of a directory is steady for the directory's entries. -/
theorem Steady.snoc {cwd p : Pos} {t : Tree} {path n : Bytes} (h : Steady cwd t path p)
    (hpath : path ≠ []) {e : Entry} (he : t.get (p ++ [n]) = some e) :
    Steady cwd t (path ++ slash :: n) (p ++ [n]) := by
  have hn := Tree.validName_of_get he
  intro u hu
  rw [resolve_append_slash hpath hn.2.1, h u hu.of_snoc, Option.bind_some, step_of_validName hn,
    hu.get_self, he]
  rfl

end DistributedSystems.Fs
