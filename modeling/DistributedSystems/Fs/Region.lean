import DistributedSystems.Fs.Calls

/-!
# Regions of a tree

What lies below a position `r`, with the way to it. A path without `..` that leads below `r` is
resolved by nothing else, so a call on such a path answers alike on trees that agree around `r`, and
leaves trees that agree there again (`SysCalls.Regional`). It changes nothing around a position that
is apart from `r`.
-/

namespace DistributedSystems.Fs

/-! ## Positions -/

/-- On the way to `r`, or below it. -/
def Near (r p : Pos) : Prop := p <+: r ∨ r <+: p

instance (r p : Pos) : Decidable (Near r p) := inferInstanceAs (Decidable (_ ∨ _))

/-- What is below `r` is not near `r'`. -/
def Apart (r r' : Pos) : Prop := ∀ p, r <+: p → ¬ Near r' p

/-- What is above a near position is near. -/
theorem Near.of_isPrefix {r p q : Pos} (hq : Near r q) (hp : p <+: q) : Near r p := by
  rcases hq with hq | hq
  · exact .inl (hp.trans hq)
  · exact List.prefix_or_prefix_of_prefix hp hq

/-- Two entries of one directory are apart. -/
theorem apart_snoc {p : Pos} {m n : Bytes} (h : m ≠ n) : Apart (p ++ [m]) (p ++ [n]) := by
  intro q hq hnear
  obtain ⟨q', rfl⟩ := hq
  have hlast : ∀ {a b : Pos}, p ++ [m] ++ a = p ++ [n] ++ b → m = n := by
    intro a b heq
    rw [List.append_assoc, List.append_assoc] at heq
    exact (List.cons.inj (List.append_cancel_left heq)).1
  rcases hnear with ⟨a, ha⟩ | ⟨a, ha⟩
  · rw [← List.append_nil (p ++ [n]), List.append_assoc] at ha
    exact h (hlast ha)
  · exact h (hlast ha.symm)

/-! ## Trees -/

namespace Tree

/-- The entries around a position. -/
def around (t : Tree) (r : Pos) : List (Pos × Entry) := t.entries.filter fun x => Near r x.1

variable {t t' u u' : Tree} {r p q : Pos} {n : Bytes} {e : Entry}

/-- A near position has the entry that the region has there. -/
theorem get_congr (h : t.around r = t'.around r) (hp : Near r p) : t.get p = t'.get p := by
  by_cases hne : p = []
  · rw [hne, get_nil, get_nil]
  · apply Option.ext
    intro a
    have hmem : ∀ v : Tree, v.get p = some a ↔ (p, a) ∈ v.around r := by
      intro v
      unfold around
      rw [get_eq_some_iff hne, List.mem_filter, decide_eq_true hp]
      exact (and_iff_left rfl).symm
    rw [hmem t, hmem t', h]

/-- The names of a directory in the region, in the order of the region. -/
theorem names_around (t : Tree) (hp : r <+: p) :
    t.names p =
      (t.around r).filterMap fun x =>
        if x.1 ≠ [] ∧ x.1.dropLast = p then x.1.getLast? else none := by
  unfold names around
  rw [List.filterMap_filter]
  congr 1
  funext x
  by_cases hx : x.1 ≠ [] ∧ x.1.dropLast = p
  · have hnear : Near r x.1 := .inr (hp.trans (hx.2 ▸ List.dropLast_prefix x.1))
    rw [if_pos (decide_eq_true hnear)]
  · rw [if_neg hx, ite_self]

/-- Regions that agree have directories that list the same. -/
theorem names_congr (h : t.around r = t'.around r) (hp : r <+: p) : t.names p = t'.names p := by
  rw [names_around t hp, names_around t' hp, h]

/-- What is created near a position is added to the region. -/
theorem around_create (h : t.create p n e = some t') (hnear : Near r (p ++ [n])) :
    t'.around r = t.around r ++ [(p ++ [n], e)] := by
  unfold around
  rw [entries_create h, List.filter_append, List.filter_cons_of_pos (by simpa using hnear),
    List.filter_nil]

/-- What is created elsewhere leaves the region as it is. -/
theorem around_create_of_apart (h : t.create p n e = some t') (hfar : ¬ Near r (p ++ [n])) :
    t'.around r = t.around r := by
  unfold around
  rw [entries_create h, List.filter_append, List.filter_cons_of_neg (by simpa using hfar),
    List.filter_nil, List.append_nil]

/-- An entry that is erased is gone from the region. -/
theorem around_erase (h : t.erase p = some t') :
    t'.around r = (t.around r).filter fun x => x.1 ≠ p := by
  unfold around
  rw [entries_erase h, List.filter_filter, List.filter_filter]
  congr 1
  funext x
  exact Bool.and_comm _ _

/-- What is erased elsewhere leaves the region as it is. -/
theorem around_erase_of_apart (h : t.erase p = some t') (hfar : ¬ Near r p) :
    t'.around r = t.around r := by
  rw [around_erase h, List.filter_eq_self]
  intro x hx
  have hnear : Near r x.1 := of_decide_eq_true (List.mem_filter.1 hx).2
  refine decide_eq_true fun heq => hfar ?_
  rwa [← heq]

/-- A write changes the one file, in the region too. -/
theorem around_write (t : Tree) (p : Pos) (data : Bytes) :
    (t.write p data).around r =
      (t.around r).map fun x => (x.1, if x.1 = p then Entry.overwritten data x.2 else x.2) := by
  unfold around write
  rw [List.filter_map]
  rfl

/-- What is written elsewhere leaves the region as it is. -/
theorem around_write_of_apart (t : Tree) (data : Bytes) (hfar : ¬ Near r p) :
    (t.write p data).around r = t.around r := by
  rw [around_write]
  refine (List.map_congr_left fun x hx => ?_).trans (List.map_id _)
  have hnear : Near r x.1 := of_decide_eq_true (List.mem_filter.1 hx).2
  have hne : x.1 ≠ p := by
    intro heq
    rw [heq] at hnear
    exact hfar hnear
  rw [if_neg hne]
  rfl

/-- Two results of which one is there if and only if the other is. -/
theorem map_eq_map_of_isSome {α β : Type} {o o' : Option α} {f : α → β}
    (hsome : o.isSome ↔ o'.isSome) (hf : ∀ u u', o = some u → o' = some u' → f u = f u') :
    o.map f = o'.map f := by
  cases ho : o with
  | none =>
    rw [ho] at hsome
    rw [Option.not_isSome_iff_eq_none.1 fun h => Bool.false_ne_true (hsome.2 h)]
  | some u =>
    rw [ho] at hsome
    obtain ⟨u', ho'⟩ := Option.isSome_iff_exists.1 (hsome.1 rfl)
    rw [ho', Option.map_some, Option.map_some, hf u u' ho ho']

/-- A creation near a position does the same to regions that agree. -/
theorem create_congr (h : t.around r = t'.around r) (hnear : Near r (p ++ [n])) :
    (t.create p n e).map (·.around r) = (t'.create p n e).map (·.around r) := by
  apply map_eq_map_of_isSome
  · rw [create_isSome_iff, create_isSome_iff, get_congr h hnear,
      get_congr h (hnear.of_isPrefix (List.prefix_append p [n]))]
  · intro u u' hu hu'
    rw [around_create hu hnear, around_create hu' hnear, h]

/-- And so does a removal. -/
theorem erase_congr (h : t.around r = t'.around r) (hp : r <+: p) :
    (t.erase p).map (·.around r) = (t'.erase p).map (·.around r) := by
  apply map_eq_map_of_isSome
  · rw [erase_isSome_iff, erase_isSome_iff, names_congr h hp]
  · intro u u' hu hu'
    rw [around_erase hu, around_erase hu', h]

end Tree

/-! ## Paths -/

/-- Without `..` a path only goes down. -/
theorem prefix_target {p : Pos} {cs : List Bytes} (hcs : dotDot ∉ cs) : p <+: target p cs := by
  induction cs generalizing p with
  | nil => exact List.prefix_refl _
  | cons c cs ih =>
    obtain ⟨hc, hcs⟩ := not_or.1 (List.mem_cons.not.1 hcs)
    unfold target
    split
    · exact ih hcs
    · rw [if_neg (Ne.symm hc)]
      exact (List.prefix_append p [c]).trans (ih hcs)

/-- Components are followed one after the other. -/
theorem target_append (p : Pos) (cs ds : List Bytes) :
    target p (cs ++ ds) = target (target p cs) ds := by
  induction cs generalizing p with
  | nil => rfl
  | cons c cs ih =>
    rw [List.cons_append, target, target]
    split
    · exact ih p
    · split
      · exact ih _
      · exact ih _

theorem target_stripTrailing (p : Pos) (cs : List Bytes) :
    target p (stripTrailing cs) = target p cs := by
  induction cs using List.reverseRecOn with
  | nil => rfl
  | append_singleton cs n ih =>
    by_cases hn : n = []
    · rw [hn, stripTrailing_snoc_nil, ih, target_append, target, if_pos (.inl rfl), target]
    · rw [stripTrailing_snoc hn]

section Walks

variable {t t' : Tree} {r p : Pos} {cs : List Bytes} (h : t.around r = t'.around r)
include h

/-- A walk to a position near `r`. -/
theorem walk_congr (hcs : dotDot ∉ cs) (hnear : Near r (target p cs)) :
    walk t p cs = walk t' p cs := by
  induction cs generalizing p with
  | nil => rfl
  | cons c cs ih =>
    obtain ⟨hc, hrest⟩ := not_or.1 (List.mem_cons.not.1 hcs)
    have hp : t.get p = t'.get p := Tree.get_congr h (hnear.of_isPrefix (prefix_target hcs))
    unfold target at hnear
    rw [walk_cons, walk_cons]
    unfold step
    rw [hp]
    by_cases hdir : t'.get p = some .dir
    · rw [if_pos hdir, if_pos hdir]
      by_cases hempty : c = [] ∨ c = dot
      · rw [if_pos hempty] at hnear
        rw [if_pos hempty, if_pos hempty]
        exact ih hrest hnear
      · rw [if_neg hempty, if_neg (Ne.symm hc)] at hnear
        rw [if_neg hempty, if_neg hempty, if_neg (Ne.symm hc), if_neg (Ne.symm hc),
          Tree.get_congr h (hnear.of_isPrefix (prefix_target hrest))]
        split
        · exact ih hrest hnear
        · rfl
    · rw [if_neg hdir, if_neg hdir]
      rfl

/-- The directory and the last name of a path are read off the region that the path leads into. -/
theorem leaf_congr (hcs : dotDot ∉ cs) (hnear : Near r (target p cs)) :
    leaf t p cs = leaf t' p cs := by
  cases cs using List.reverseRecOn with
  | nil => rfl
  | append_singleton cs n =>
    have hrest : dotDot ∉ cs := fun hmem => hcs (List.mem_append_left _ hmem)
    have hlast : dotDot ∉ [n] := fun hmem => hcs (List.mem_append_right _ hmem)
    have hparent : Near r (target p cs) := by
      rw [target_append] at hnear
      exact hnear.of_isPrefix (prefix_target hlast)
    rw [leaf_snoc, leaf_snoc, walk_congr h hrest hparent]
    cases hw : walk t' p cs with
    | none => rfl
    | some q =>
      obtain rfl := eq_target_of_walk hw
      rw [Option.bind_some, Option.bind_some, Tree.get_congr h hparent]

end Walks

/-- The entry that a path leads to, by the directory and the name in it. -/
theorem target_of_leaf {t : Tree} {p q : Pos} {cs : List Bytes} {n : Bytes}
    (h : leaf t p cs = some (q, n)) (hn : ValidName n) : target p cs = q ++ [n] := by
  obtain ⟨ds, rfl, hw, -⟩ := leaf_eq_some_iff.1 h
  obtain rfl := eq_target_of_walk hw
  have hne : ¬(n = [] ∨ n = dot) := fun hor => hor.elim hn.1 hn.2.2.2.1
  rw [target_append, target, if_neg hne, if_neg hn.2.2.2.2, target]

/-- The path has no `..` and leads below `r`. -/
structure Inside (cwd r : Pos) (path : Bytes) : Prop where
  ne_nil : path ≠ []
  forward : dotDot ∉ components path
  below : r <+: target (origin cwd path) (components path)

namespace Inside

variable {cwd r : Pos} {path : Bytes} {t t' : Tree}

/-- A path into a region resolves by the region alone. -/
theorem resolve_congr (hpath : Inside cwd r path) (h : t.around r = t'.around r) :
    resolve cwd t path = resolve cwd t' path := by
  unfold resolve
  rw [if_neg hpath.ne_nil, if_neg hpath.ne_nil]
  exact walk_congr h hpath.forward (.inr hpath.below)

/-- A path into a region resolves to a position in it. -/
theorem of_resolve (hpath : Inside cwd r path) {p : Pos} (h : resolve cwd t path = some p) :
    r <+: p := by
  unfold resolve at h
  rw [if_neg hpath.ne_nil] at h
  rw [eq_target_of_walk h]
  exact hpath.below

theorem leaf_congr (hpath : Inside cwd r path) (h : t.around r = t'.around r) :
    leaf t (origin cwd path) (components path) = leaf t' (origin cwd path) (components path) :=
  Fs.leaf_congr h hpath.forward (.inr hpath.below)

theorem stripped_congr (hpath : Inside cwd r path) (h : t.around r = t'.around r) :
    leaf t (origin cwd path) (stripTrailing (components path)) =
      leaf t' (origin cwd path) (stripTrailing (components path)) := by
  refine Fs.leaf_congr h (fun hmem => hpath.forward ?_) (.inr ?_)
  · exact (List.rdropWhile_prefix _ _).subset hmem
  · rw [target_stripTrailing]
    exact hpath.below

/-- What a path into a region names is in the region. -/
theorem of_leaf (hpath : Inside cwd r path) {p : Pos} {n : Bytes}
    (h : leaf t (origin cwd path) (components path) = some (p, n)) (hn : ValidName n) :
    r <+: p ++ [n] := by
  rw [← target_of_leaf h hn]
  exact hpath.below

theorem of_stripped (hpath : Inside cwd r path) {p : Pos} {n : Bytes}
    (h : leaf t (origin cwd path) (stripTrailing (components path)) = some (p, n))
    (hn : ValidName n) : r <+: p ++ [n] := by
  rw [← target_of_leaf h hn, target_stripTrailing]
  exact hpath.below

/-- The path of an entry of a directory whose path is inside. -/
theorem snoc (hpath : Inside cwd r path) {n : Bytes} (hn : ValidName n) :
    Inside cwd r (path ++ slash :: n) := by
  have hcomponents : components (path ++ slash :: n) = components path ++ [n] := by
    rw [components_append_slash, components_of_not_mem hn.2.1]
  have horigin : origin cwd (path ++ slash :: n) = origin cwd path := by
    cases path with
    | nil => exact absurd rfl hpath.ne_nil
    | cons b path => rfl
  refine ⟨by simp, ?_, ?_⟩
  · rw [hcomponents]
    intro hmem
    rcases List.mem_append.1 hmem with hmem | hmem
    · exact hpath.forward hmem
    · exact hn.2.2.2.2 (List.mem_singleton.1 hmem).symm
  · have hlast : dotDot ∉ [n] := fun hmem => hn.2.2.2.2 (List.mem_singleton.1 hmem).symm
    rw [hcomponents, horigin, target_append]
    exact hpath.below.trans (prefix_target hlast)

end Inside

/-! ## Calls -/

/-- A call on a path inside `r` goes by what is around `r`. -/
structure SysCalls.Regional (cwd r : Pos) (c : SysCalls) : Prop where
  opendir : ∀ {t t' path}, Inside cwd r path → t.around r = t'.around r →
    c.opendir t path = c.opendir t' path
  stat : ∀ {t t' path}, Inside cwd r path → t.around r = t'.around r →
    c.stat t path = c.stat t' path
  mkdir : ∀ {t t' path}, Inside cwd r path → t.around r = t'.around r →
    (c.mkdir t path).map (·.around r) = (c.mkdir t' path).map (·.around r)
  openCreate : ∀ {t t' path}, Inside cwd r path → t.around r = t'.around r →
    (c.openCreate t path).map (fun x => (x.1.around r, x.2)) =
      (c.openCreate t' path).map fun x => (x.1.around r, x.2)
  write : ∀ {t t' p data}, t.around r = t'.around r →
    (c.write t p data).map (·.around r) = (c.write t' p data).map (·.around r)
  unlink : ∀ {t t' path}, Inside cwd r path → t.around r = t'.around r →
    (c.unlink t path).map (·.around r) = (c.unlink t' path).map (·.around r)
  rmdir : ∀ {t t' path}, Inside cwd r path → t.around r = t'.around r →
    (c.rmdir t path).map (·.around r) = (c.rmdir t' path).map (·.around r)
  remove : ∀ {t t' path}, Inside cwd r path → t.around r = t'.around r →
    (c.remove t path).map (·.around r) = (c.remove t' path).map (·.around r)
  malloc : ∀ t t' path, c.malloc t path = c.malloc t' path

/-- A system on which every call fails. -/
def SysCalls.failing : SysCalls where
  opendir _ _ := none
  stat _ _ := none
  mkdir _ _ := none
  openCreate _ _ := none
  write _ _ _ := none
  unlink _ _ := none
  rmdir _ _ := none
  remove _ _ := none
  malloc _ _ := false

theorem SysCalls.failing_le (c : SysCalls) : failing ≤ c :=
  have hnone : ∀ {α : Type} {P : Prop} (x : α), none = some x → P := fun _ h => nomatch h
  ⟨fun _ _ r h => hnone r h, fun _ _ r h => hnone r h, fun _ _ r h => hnone r h,
    fun _ _ r h => hnone r h, fun _ _ _ r h => hnone r h, fun _ _ r h => hnone r h,
    fun _ _ r h => hnone r h, fun _ _ r h => hnone r h, fun _ _ h => absurd h Bool.false_ne_true⟩

/-- What a call of the system answers is what it answers on one where all calls fail, or on a POSIX
system. -/
theorem SysCalls.choice {cwd : Pos} {c : SysCalls} {α : Type} (f : SysCalls → Option α)
    (hfails : f .failing = none) (hle : ∀ r, f c = some r → f (posix cwd) = some r) :
    ∃ c', (c' = .failing ∨ c' = posix cwd) ∧ f c = f c' := by
  cases ho : f c with
  | none => exact ⟨.failing, .inl rfl, hfails.symm⟩
  | some r => exact ⟨posix cwd, .inr rfl, (hle r ho).symm⟩

/-- Calls that all fail are regional. -/
theorem regional_failing (cwd r : Pos) : SysCalls.failing.Regional cwd r :=
  ⟨fun _ _ => rfl, fun _ _ => rfl, fun _ _ => rfl, fun _ _ => rfl, fun _ => rfl, fun _ _ => rfl,
    fun _ _ => rfl, fun _ _ => rfl, fun _ _ _ => rfl⟩

section Posix

variable {cwd r : Pos} {t t' : Tree} {path : Bytes}

theorem around_posixUnlink (hpath : Inside cwd r path) (h : t.around r = t'.around r) :
    (posixUnlink cwd t path).map (·.around r) = (posixUnlink cwd t' path).map (·.around r) := by
  unfold posixUnlink
  rw [hpath.leaf_congr h]
  cases hleaf : leaf t' (origin cwd path) (components path) with
  | none => rfl
  | some x =>
    obtain ⟨p, n⟩ := x
    rw [Option.bind_some, Option.bind_some]
    by_cases hn : ValidName n
    · have hbelow : r <+: p ++ [n] := hpath.of_leaf hleaf hn
      dsimp only
      rw [Tree.get_congr h (.inr hbelow)]
      cases t'.get (p ++ [n]) with
      | none => rfl
      | some e =>
        cases e with
        | dir => rfl
        | file old => exact Tree.erase_congr h hbelow
    · have hnone : ∀ u : Tree, u.get (p ++ [n]) = none := by
        intro u
        by_contra hsome
        obtain ⟨e, he⟩ := Option.ne_none_iff_exists'.1 hsome
        exact hn (Tree.validName_of_get he)
      rw [hnone t, hnone t']

theorem around_posixRmdir (hpath : Inside cwd r path) (h : t.around r = t'.around r) :
    (posixRmdir cwd t path).map (·.around r) = (posixRmdir cwd t' path).map (·.around r) := by
  unfold posixRmdir
  rw [hpath.stripped_congr h]
  cases hleaf : leaf t' (origin cwd path) (stripTrailing (components path)) with
  | none => rfl
  | some x =>
    obtain ⟨p, n⟩ := x
    rw [Option.bind_some, Option.bind_some]
    by_cases hn : ValidName n
    · have hbelow : r <+: p ++ [n] := hpath.of_stripped hleaf hn
      rw [Tree.get_congr h (.inr hbelow)]
      split
      · exact Tree.erase_congr h hbelow
      · rfl
    · have hnot : ∀ u : Tree, u.get (p ++ [n]) ≠ some .dir :=
        fun u he => hn (Tree.validName_of_get he)
      rw [if_neg (hnot t), if_neg (hnot t')]

theorem around_mkdir (hpath : Inside cwd r path) (h : t.around r = t'.around r) :
    ((posix cwd).mkdir t path).map (·.around r) =
      ((posix cwd).mkdir t' path).map (·.around r) := by
  simp only [posix]
  rw [hpath.stripped_congr h]
  cases hleaf : leaf t' (origin cwd path) (stripTrailing (components path)) with
  | none => rfl
  | some x =>
    obtain ⟨p, n⟩ := x
    rw [Option.bind_some, Option.bind_some]
    by_cases hn : ValidName n
    · exact Tree.create_congr h (.inr (hpath.of_stripped hleaf hn))
    · have hnone : ∀ u : Tree, u.create p n .dir = none := by
        intro u
        rw [← Option.not_isSome_iff_eq_none, Tree.create_isSome_iff]
        exact fun hc => hn hc.2.2
      rw [hnone t, hnone t']

theorem around_openCreate (hpath : Inside cwd r path) (h : t.around r = t'.around r) :
    ((posix cwd).openCreate t path).map (fun x => (x.1.around r, x.2)) =
      ((posix cwd).openCreate t' path).map fun x => (x.1.around r, x.2) := by
  simp only [posix]
  rw [hpath.leaf_congr h]
  cases hleaf : leaf t' (origin cwd path) (components path) with
  | none => rfl
  | some x =>
    obtain ⟨p, n⟩ := x
    rw [Option.bind_some, Option.bind_some]
    by_cases hn : ValidName n
    · have hbelow : r <+: p ++ [n] := hpath.of_leaf hleaf hn
      have hcreate := Tree.create_congr (e := .file []) h (.inr hbelow)
      rw [Tree.get_congr h (.inr hbelow)]
      cases t'.get (p ++ [n]) with
      | none =>
        rw [Option.map_map, Option.map_map]
        have hpair := congrArg (Option.map fun l => (l, p ++ [n])) hcreate
        rwa [Option.map_map, Option.map_map] at hpair
      | some e =>
        cases e with
        | dir => rfl
        | file old =>
          rw [Option.map_some, Option.map_some, h]
    · have hget : ∀ u : Tree, u.get (p ++ [n]) = none := by
        intro u
        by_contra hsome
        obtain ⟨e, he⟩ := Option.ne_none_iff_exists'.1 hsome
        exact hn (Tree.validName_of_get he)
      have hnone : ∀ u : Tree, u.create p n (.file []) = none := by
        intro u
        rw [← Option.not_isSome_iff_eq_none, Tree.create_isSome_iff]
        exact fun hc => hn hc.2.2
      rw [hget t, hget t', hnone t, hnone t']

/-- The calls of a POSIX system are regional: what one does to a region depends on the region alone.
-/
theorem regional_posix (cwd r : Pos) : (posix cwd).Regional cwd r where
  opendir := by
    intro t t' path hpath h
    simp only [posix]
    rw [hpath.resolve_congr h]
    cases hres : resolve cwd t' path with
    | none => rfl
    | some p =>
      have hbelow := hpath.of_resolve hres
      rw [Option.bind_some, Option.bind_some, Tree.get_congr h (.inr hbelow)]
      unfold listing
      rw [Tree.names_congr h hbelow]
  stat := by
    intro t t' path hpath h
    simp only [posix]
    rw [hpath.resolve_congr h]
    cases hres : resolve cwd t' path with
    | none => rfl
    | some p => exact Tree.get_congr h (.inr (hpath.of_resolve hres))
  mkdir := around_mkdir
  openCreate := around_openCreate
  write := by
    intro t t' p data h
    simp only [posix, Option.map_some]
    rw [Tree.around_write, Tree.around_write, h]
  unlink := around_posixUnlink
  rmdir := around_posixRmdir
  remove := by
    intro t t' path hpath h
    have hunlink := around_posixUnlink hpath h
    have hrmdir := around_posixRmdir hpath h
    simp only [posix, Option.map_or] at hunlink hrmdir ⊢
    rw [hunlink, hrmdir]
  malloc := fun _ _ _ => rfl

end Posix

/-- A file that is opened is inside. -/
theorem Inside.of_openCreate {cwd r : Pos} {c : SysCalls} (hc : c ≤ posix cwd) {t t' : Tree}
    {path : Bytes} (hpath : Inside cwd r path) {fd : Pos}
    (h : c.openCreate t path = some (t', fd)) : r <+: fd := by
  obtain ⟨p, n, hleaf, rfl, hor⟩ :=
    posix.openCreate_eq_some_iff.1 (SysCalls.openCreate_of_le hc h)
  rcases hor with ⟨old, hold, -⟩ | hcreate
  · exact hpath.of_leaf hleaf (Tree.validName_of_get hold)
  · have hn := (Tree.create_isSome_iff.1 (Option.isSome_of_eq_some hcreate)).2.2
    exact hpath.of_leaf hleaf hn

/-! ## What the calls leave elsewhere -/

section Apart

variable {cwd r r' : Pos} {c : SysCalls} (hc : c ≤ posix cwd) (hr : Apart r r') {t t' : Tree}
  {path : Bytes}
include hc hr

/-- A directory that is made in one region leaves another that is apart as it is. -/
theorem around_of_mkdir (hpath : Inside cwd r path) (h : c.mkdir t path = some t') :
    t'.around r' = t.around r' := by
  obtain ⟨p, n, hleaf, hcreate⟩ := posix.mkdir_eq_some_iff.1 (SysCalls.mkdir_of_le hc h)
  have hn := (Tree.create_isSome_iff.1 (Option.isSome_of_eq_some hcreate)).2.2
  exact Tree.around_create_of_apart hcreate (hr _ (hpath.of_stripped hleaf hn))

/-- And so does a file that is created. -/
theorem around_of_openCreate (hpath : Inside cwd r path) {fd : Pos}
    (h : c.openCreate t path = some (t', fd)) : t'.around r' = t.around r' := by
  have hbelow : r <+: fd := hpath.of_openCreate hc h
  obtain ⟨p, n, -, rfl, hor⟩ := posix.openCreate_eq_some_iff.1 (SysCalls.openCreate_of_le hc h)
  rcases hor with ⟨old, -, rfl⟩ | hcreate
  · rfl
  · exact Tree.around_create_of_apart hcreate (hr _ hbelow)

/-- And so does a file that is written to. -/
theorem around_of_write {p : Pos} {data : Bytes} (hp : r <+: p)
    (h : c.write t p data = some t') : t'.around r' = t.around r' := by
  obtain rfl : t.write p data = t' := Option.some.inj (SysCalls.write_of_le hc h)
  exact Tree.around_write_of_apart t data (hr p hp)

theorem around_of_unlink (hpath : Inside cwd r path) (h : c.unlink t path = some t') :
    t'.around r' = t.around r' := by
  obtain ⟨p, n, old, hleaf, hget, herase⟩ :=
    posix.unlink_eq_some_iff.1 (SysCalls.unlink_of_le hc h)
  have hbelow := hpath.of_leaf hleaf (Tree.validName_of_get hget)
  exact Tree.around_erase_of_apart herase (hr _ hbelow)

theorem around_of_rmdir (hpath : Inside cwd r path) (h : c.rmdir t path = some t') :
    t'.around r' = t.around r' := by
  obtain ⟨p, n, hleaf, hget, herase⟩ := posix.rmdir_eq_some_iff.1 (SysCalls.rmdir_of_le hc h)
  have hbelow := hpath.of_stripped hleaf (Tree.validName_of_get hget)
  exact Tree.around_erase_of_apart herase (hr _ hbelow)

/-- And so does anything that is removed. -/
theorem around_of_remove (hpath : Inside cwd r path) (h : c.remove t path = some t') :
    t'.around r' = t.around r' := by
  obtain ⟨p, n, e, hleaf, -, hget, herase⟩ := posix.remove_erases (SysCalls.remove_of_le hc h)
  have hbelow := hpath.of_stripped hleaf (Tree.validName_of_get hget)
  exact Tree.around_erase_of_apart herase (hr _ hbelow)

end Apart

end DistributedSystems.Fs
