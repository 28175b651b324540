import Mathlib.Data.List.Infix
import Mathlib.Data.List.Nodup
import Mathlib.Data.List.Perm.Subperm
import Mathlib.Order.Basic

/-!
# File trees

A finite tree of directories and regular files, given as the list of its entries by position (the
names from the root down). The root is a directory and is not listed. A tree carries its own
well-formedness: no position twice, every entry inside a listed directory, every name one that a
directory can hold. The order of the list is the order in which a directory is read.

`create`, `erase` and `write` are the three changes a system call can make. Each comes with the
entry found at every position afterwards (`get_create`, `get_erase`, `get_write`).
-/

namespace DistributedSystems.Fs

/-- A string of bytes: the characters of a C string before its terminating NUL. -/
abbrev Bytes := List UInt8

/-- The bytes of a string literal. -/
def cstring (s : String) : Bytes := s.toUTF8.data.toList

/-- The separator of path components. -/
def slash : UInt8 := 47

def nul : UInt8 := 0

/-- The directory itself, as every directory lists it. -/
def dot : Bytes := [46]

/-- The parent directory, as every directory lists it. -/
def dotDot : Bytes := [46, 46]

/-- A name that an entry can have. -/
def ValidName (n : Bytes) : Prop :=
  n ≠ [] ∧ slash ∉ n ∧ nul ∉ n ∧ n ≠ dot ∧ n ≠ dotDot

instance : DecidablePred ValidName := fun n =>
  inferInstanceAs (Decidable (n ≠ [] ∧ slash ∉ n ∧ nul ∉ n ∧ n ≠ dot ∧ n ≠ dotDot))

/-- A position in a tree: the names from the root down. -/
abbrev Pos := List Bytes

inductive Entry
  | dir
  | file (content : Bytes)
deriving DecidableEq, Repr

/-- `data` over the first bytes of `old`. -/
def overwrite (data old : Bytes) : Bytes := data ++ old.drop data.length

@[simp] theorem overwrite_nil (old : Bytes) : overwrite [] old = old := rfl

@[simp] theorem overwrite_cons_cons (a b : UInt8) (data old : Bytes) :
    overwrite (a :: data) (b :: old) = a :: overwrite data old := rfl

theorem length_overwrite {data old : Bytes} (h : data.length ≤ old.length) :
    (overwrite data old).length = old.length := by
  simp only [overwrite, List.length_append, List.length_drop]
  omega

/-- Storing one more byte after the bytes already written over. -/
theorem set_overwrite {data old : Bytes} (h : data.length < old.length) (c : UInt8) :
    (overwrite data old).set data.length c = overwrite (data ++ [c]) old := by
  induction data generalizing old with
  | nil =>
    cases old with
    | nil => simp at h
    | cons b old => rfl
  | cons a data ih =>
    cases old with
    | nil => simp at h
    | cons b old =>
      have hlt : data.length < old.length := by simpa using h
      simp [ih hlt]

/-- What is written over is what was there exactly when it starts the old bytes. -/
theorem overwrite_eq_self_iff {data old : Bytes} : overwrite data old = old ↔ data <+: old := by
  constructor
  · intro h
    exact h ▸ List.prefix_append _ _
  · rintro ⟨rest, rfl⟩
    simp [overwrite]

/-- The entry that a write at offset 0 leaves. Only files are written. -/
def Entry.overwritten (data : Bytes) : Entry → Entry
  | .dir => .dir
  | .file old => .file (overwrite data old)

/-! ## Lookup in a list with distinct keys -/

theorem lookup_eq_some_iff_mem {α β : Type} [BEq α] [LawfulBEq α] {l : List (α × β)}
    (h : (l.map Prod.fst).Nodup) {k : α} {v : β} : l.lookup k = some v ↔ (k, v) ∈ l := by
  induction l with
  | nil => simp
  | cons x l ih =>
    obtain ⟨k', v'⟩ := x
    rw [List.map_cons, List.nodup_cons] at h
    by_cases hk : k = k'
    · subst hk
      have hmem : (k, v) ∉ l := by
        intro hm
        exact h.1 (List.mem_map.2 ⟨(k, v), hm, rfl⟩)
      simp [hmem, eq_comm]
    · have hb : (k == k') = false := by simpa using hk
      simp [List.lookup_cons, hb, ih h.2, hk]

/-! ## Trees -/

structure Tree where
  entries : List (Pos × Entry)
  nodup : (entries.map Prod.fst).Nodup
  parent : ∀ p n e, (p ++ [n], e) ∈ entries → p = [] ∨ (p, Entry.dir) ∈ entries
  valid : ∀ q e, (q, e) ∈ entries → q ≠ [] ∧ ∀ n ∈ q, ValidName n

namespace Tree

theorem ext_entries {t u : Tree} (h : t.entries = u.entries) : t = u := by
  cases t; cases u; cases h; rfl

/-- The root alone. -/
def empty : Tree where
  entries := []
  nodup := List.nodup_nil
  parent _ _ _ h := absurd h List.not_mem_nil
  valid _ _ h := absurd h List.not_mem_nil

instance : DecidableEq Tree := fun t u =>
  decidable_of_iff (t.entries = u.entries) ⟨ext_entries, fun h => h ▸ rfl⟩

/-- The entry at a position. The root is always a directory. -/
def get (t : Tree) (p : Pos) : Option Entry :=
  if p = [] then some .dir else t.entries.lookup p

/-- The names in the directory at `p`, in reading order and without the two dot names. -/
def names (t : Tree) (p : Pos) : List Bytes :=
  t.entries.filterMap fun x => if x.1 ≠ [] ∧ x.1.dropLast = p then x.1.getLast? else none

@[simp] theorem get_nil (t : Tree) : t.get [] = some .dir := rfl

theorem get_eq_some_iff {t : Tree} {p : Pos} (hp : p ≠ []) {e : Entry} :
    t.get p = some e ↔ (p, e) ∈ t.entries := by
  unfold get
  rw [if_neg hp]
  exact lookup_eq_some_iff_mem t.nodup

theorem get_snoc_eq_some_iff {t : Tree} {p : Pos} {n : Bytes} {e : Entry} :
    t.get (p ++ [n]) = some e ↔ (p ++ [n], e) ∈ t.entries :=
  get_eq_some_iff (by simp)

/-- An entry lies in a directory of the tree. -/
theorem get_parent {t : Tree} {p : Pos} {n : Bytes} {e : Entry}
    (h : t.get (p ++ [n]) = some e) : t.get p = some .dir := by
  rcases t.parent p n e (get_snoc_eq_some_iff.1 h) with rfl | hp
  · rfl
  · exact (get_eq_some_iff (t.valid p _ hp).1).2 hp

/-- Nothing lies below what is not there. -/
theorem get_snoc_of_absent {t : Tree} {p : Pos} (h : t.get p = none) (n : Bytes) :
    t.get (p ++ [n]) = none := by
  cases hget : t.get (p ++ [n]) with
  | none => rfl
  | some e =>
    rw [get_parent hget] at h
    cases h

theorem validName_of_get {t : Tree} {p : Pos} {n : Bytes} {e : Entry}
    (h : t.get (p ++ [n]) = some e) : ValidName n :=
  (t.valid _ _ (get_snoc_eq_some_iff.1 h)).2 n (by simp)

/-- Every name on the way to an entry is valid. -/
theorem validName_of_mem {t : Tree} {q : Pos} {e : Entry} (h : t.get q = some e) {n : Bytes}
    (hn : n ∈ q) : ValidName n :=
  (t.valid q e ((get_eq_some_iff (List.ne_nil_of_mem hn)).1 h)).2 n hn

/-- Everything above an entry is a directory. -/
theorem get_of_isPrefix {t : Tree} {p q : Pos} {e : Entry} (hpq : p <+: q)
    (h : t.get q = some e) (hne : p ≠ q) : t.get p = some .dir := by
  obtain ⟨r, rfl⟩ := hpq
  induction r using List.reverseRecOn generalizing e with
  | nil => exact absurd (List.append_nil p).symm hne
  | append_singleton r n ih =>
    rw [← List.append_assoc] at h
    have hpar := get_parent h
    by_cases hr : r = []
    · subst hr; simpa using hpar
    · exact ih hpar (by simpa using hr)

/-- What an entry contributes to the listing of `p` tells its position. -/
theorem eq_snoc_of_listed {p q : Pos} {n : Bytes}
    (h : (if q ≠ [] ∧ q.dropLast = p then q.getLast? else none) = some n) : q = p ++ [n] := by
  split at h
  · rename_i hc
    obtain ⟨hne, rfl⟩ := hc
    rw [List.getLast?_eq_some_getLast hne] at h
    rw [← Option.some.inj h, List.dropLast_append_getLast]
  · cases h

/-- A position is no deeper than the tree has entries: its prefixes are entries too. -/
theorem length_le_of_get {t : Tree} {q : Pos} {e : Entry} (h : t.get q = some e) :
    q.length ≤ t.entries.length := by
  let above := (List.range q.length).map fun i => q.take (i + 1)
  have hnd : above.Nodup := by
    refine List.Nodup.map_on (fun i hi j hj hij => ?_) List.nodup_range
    have hlen := congrArg List.length hij
    simp only [List.length_take, List.mem_range] at hlen hi hj
    omega
  have hsub : above ⊆ t.entries.map Prod.fst := by
    intro p hp
    obtain ⟨i, hi, rfl⟩ := List.mem_map.1 hp
    rw [List.mem_range] at hi
    have hne : q.take (i + 1) ≠ [] := by
      intro he
      have := congrArg List.length he
      simp only [List.length_take, List.length_nil] at this
      omega
    obtain ⟨e', he'⟩ : ∃ e', t.get (q.take (i + 1)) = some e' := by
      by_cases heq : q.take (i + 1) = q
      · exact ⟨e, heq.symm ▸ h⟩
      · exact ⟨_, get_of_isPrefix ⟨_, List.take_append_drop _ _⟩ h heq⟩
    exact List.mem_map.2 ⟨_, (get_eq_some_iff hne).1 he', rfl⟩
  have hle := (hnd.subperm hsub).length_le
  simpa [above] using hle

theorem mem_names {t : Tree} {p : Pos} {n : Bytes} :
    n ∈ t.names p ↔ (t.get (p ++ [n])).isSome := by
  rw [Option.isSome_iff_exists, names, List.mem_filterMap]
  constructor
  · rintro ⟨⟨q, e⟩, hmem, hq⟩
    obtain rfl : q = p ++ [n] := eq_snoc_of_listed hq
    exact ⟨e, get_snoc_eq_some_iff.2 hmem⟩
  · rintro ⟨e, he⟩
    exact ⟨(p ++ [n], e), get_snoc_eq_some_iff.1 he, by simp⟩

theorem names_nodup (t : Tree) (p : Pos) : (t.names p).Nodup := by
  have hkeys := t.nodup
  rw [List.Nodup, List.pairwise_map] at hkeys
  unfold names
  rw [List.Nodup, List.pairwise_filterMap]
  refine hkeys.imp fun {a b} hab n hn m hm hnm => hab ?_
  subst hnm
  rw [eq_snoc_of_listed hn, eq_snoc_of_listed hm]

theorem names_eq_nil_iff {t : Tree} {p : Pos} :
    t.names p = [] ↔ ∀ n, t.get (p ++ [n]) = none := by
  simp only [List.eq_nil_iff_forall_not_mem, mem_names, Option.not_isSome_iff_eq_none]

/-! ## Changes -/

/-- A new entry `n` in the directory `p`. -/
def create (t : Tree) (p : Pos) (n : Bytes) (e : Entry) : Option Tree :=
  if h : t.get p = some .dir ∧ t.get (p ++ [n]) = none ∧ ValidName n then
    some
      { entries := t.entries ++ [(p ++ [n], e)]
        nodup := by
          rw [List.map_append, List.nodup_append]
          refine ⟨t.nodup, by simp, ?_⟩
          rintro q hq q' hq' rfl
          obtain ⟨⟨q, e'⟩, hmem, rfl⟩ := List.mem_map.1 hq
          obtain rfl : q = p ++ [n] := by simpa using hq'
          have := get_snoc_eq_some_iff.2 hmem
          rw [h.2.1] at this
          cases this
        parent := by
          intro p' n' e' hmem
          rcases List.mem_append.1 hmem with hmem | hmem
          · exact (t.parent p' n' e' hmem).imp_right fun hp => List.mem_append_left _ hp
          · obtain ⟨hpos, -⟩ : p' ++ [n'] = p ++ [n] ∧ e' = e := by simpa using hmem
            obtain ⟨rfl, -⟩ := List.append_inj' hpos rfl
            by_cases hp : p' = []
            · exact Or.inl hp
            · exact Or.inr (List.mem_append_left _ ((get_eq_some_iff hp).1 h.1))
        valid := by
          intro q e' hmem
          rcases List.mem_append.1 hmem with hmem | hmem
          · exact t.valid q e' hmem
          · obtain ⟨rfl, -⟩ : q = p ++ [n] ∧ e' = e := by simpa using hmem
            refine ⟨by simp, fun m hm => ?_⟩
            rcases List.mem_append.1 hm with hm | hm
            · have hp : p ≠ [] := List.ne_nil_of_mem hm
              exact (t.valid p _ ((get_eq_some_iff hp).1 h.1)).2 m hm
            · rw [List.mem_singleton.1 hm]; exact h.2.2 }
  else none

/-- The tree without the entry at `p`, which must be a file or an empty directory. -/
def erase (t : Tree) (p : Pos) : Option Tree :=
  if h : t.names p = [] then
    some
      { entries := t.entries.filter fun x => x.1 ≠ p
        nodup := t.nodup.sublist (List.filter_sublist.map _)
        parent := by
          intro p' n' e' hmem
          have hmem := List.mem_filter.1 hmem
          apply (t.parent p' n' e' hmem.1).imp_right
          intro hp
          refine List.mem_filter.2 ⟨hp, ?_⟩
          have hne : p' ≠ p := by
            rintro rfl
            have := names_eq_nil_iff.1 h n'
            rw [get_snoc_eq_some_iff.2 hmem.1] at this
            cases this
          simpa using hne
        valid := fun q e' hmem => t.valid q e' (List.mem_of_mem_filter hmem) }
  else none

/-- Creation succeeds exactly for a new valid name in an existing directory. -/
theorem create_isSome_iff {t : Tree} {p : Pos} {n : Bytes} {e : Entry} :
    (t.create p n e).isSome ↔ t.get p = some .dir ∧ t.get (p ++ [n]) = none ∧ ValidName n := by
  unfold create
  split <;> simp_all

theorem entries_create {t t' : Tree} {p : Pos} {n : Bytes} {e : Entry}
    (h : t.create p n e = some t') : t'.entries = t.entries ++ [(p ++ [n], e)] := by
  unfold create at h
  split at h
  · cases h; rfl
  · cases h

theorem get_create {t t' : Tree} {p : Pos} {n : Bytes} {e : Entry}
    (h : t.create p n e = some t') (q : Pos) :
    t'.get q = if q = p ++ [n] then some e else t.get q := by
  have hnew := (create_isSome_iff.1 (Option.isSome_of_eq_some h)).2.1
  have hent := entries_create h
  by_cases hq : q = []
  · subst hq; simp
  · apply Option.ext
    intro a
    rw [get_eq_some_iff hq, hent]
    by_cases hqp : q = p ++ [n]
    · subst hqp
      have hold : (p ++ [n], a) ∉ t.entries := by
        intro hm
        rw [get_snoc_eq_some_iff.2 hm] at hnew; cases hnew
      simp [hold, eq_comm]
    · simp [hqp, get_eq_some_iff hq]

theorem entries_erase {t t' : Tree} {p : Pos} (h : t.erase p = some t') :
    t'.entries = t.entries.filter fun x => x.1 ≠ p := by
  unfold erase at h
  split at h
  · cases h; rfl
  · cases h

theorem erase_isSome_iff {t : Tree} {p : Pos} : (t.erase p).isSome ↔ t.names p = [] := by
  unfold erase
  split <;> simp_all

theorem get_erase {t t' : Tree} {p : Pos} (hp : p ≠ []) (h : t.erase p = some t') (q : Pos) :
    t'.get q = if q = p then none else t.get q := by
  have hent := entries_erase h
  by_cases hq : q = []
  · subst hq; simp [Ne.symm hp]
  · apply Option.ext
    intro a
    rw [get_eq_some_iff hq, hent, List.mem_filter]
    by_cases hqp : q = p
    · simp [hqp]
    · simp [hqp, get_eq_some_iff hq]

theorem create_ne {t t' : Tree} {p : Pos} {n : Bytes} {e : Entry}
    (h : t.create p n e = some t') : t' ≠ t := by
  rintro rfl
  have hnew := get_create h (p ++ [n])
  rw [if_pos rfl, (create_isSome_iff.1 (Option.isSome_of_eq_some h)).2.1] at hnew
  cases hnew

/-- Everything that was there before a creation still is. -/
theorem get_of_create {t t' : Tree} {p : Pos} {n : Bytes} {e : Entry}
    (h : t.create p n e = some t') {q : Pos} {e' : Entry} (hq : t.get q = some e') :
    t'.get q = some e' := by
  have hnew := (create_isSome_iff.1 (Option.isSome_of_eq_some h)).2.1
  have hne : q ≠ p ++ [n] := by rintro rfl; rw [hnew] at hq; cases hq
  rw [get_create h, if_neg hne, hq]

theorem erase_ne {t t' : Tree} {p : Pos} (hp : p ≠ []) {e : Entry} (he : t.get p = some e)
    (h : t.erase p = some t') : t' ≠ t := by
  rintro rfl
  have hgone := get_erase hp h p
  rw [if_pos rfl, he] at hgone
  cases hgone

/-- A file has nothing below it. -/
theorem names_of_not_dir {t : Tree} {p : Pos} (h : t.get p ≠ some .dir) : t.names p = [] := by
  rw [names_eq_nil_iff]
  intro n
  cases hg : t.get (p ++ [n]) with
  | none => rfl
  | some e => exact absurd (get_parent hg) h

/-- Erasing the entry that was just created gives the old tree back. -/
theorem erase_of_create {t t' : Tree} {p : Pos} {n : Bytes} {e : Entry}
    (h : t.create p n e = some t') : t'.erase (p ++ [n]) = some t := by
  have hnew := (create_isSome_iff.1 (Option.isSome_of_eq_some h)).2.1
  have hnames : t'.names (p ++ [n]) = [] := by
    rw [names_eq_nil_iff]
    intro m
    rw [get_create h, if_neg (by simp)]
    cases hg : t.get (p ++ [n] ++ [m]) with
    | none => rfl
    | some e => rw [get_parent hg] at hnew; cases hnew
  obtain ⟨u, hu⟩ := Option.isSome_iff_exists.1 (erase_isSome_iff.2 hnames)
  rw [hu]
  refine congrArg some (ext_entries ?_)
  rw [entries_erase hu, entries_create h, List.filter_append]
  have hkeep : t.entries.filter (fun x => decide (x.1 ≠ p ++ [n])) = t.entries := by
    apply List.filter_eq_self.2
    intro x hx
    have hne : x.1 ≠ p ++ [n] := by
      intro hxe
      have hmem : (p ++ [n], x.2) ∈ t.entries := hxe ▸ hx
      rw [get_snoc_eq_some_iff.2 hmem] at hnew
      cases hnew
    simpa using hne
  rw [hkeep]
  simp

theorem keys_map_entry (f : Pos × Entry → Entry) (l : List (Pos × Entry)) :
    (l.map fun x => (x.1, f x)).map Prod.fst = l.map Prod.fst := by
  simp [Function.comp_def]

/-- The tree after `data` has been written at the start of the file at `p`. -/
def write (t : Tree) (p : Pos) (data : Bytes) : Tree :=
  let f : Pos × Entry → Entry := fun x => if x.1 = p then Entry.overwritten data x.2 else x.2
  { entries := t.entries.map fun x => (x.1, f x)
    nodup := by rw [keys_map_entry]; exact t.nodup
    parent := by
      intro p' n' e' hmem
      obtain ⟨⟨q, e⟩, hq, heq⟩ := List.mem_map.1 hmem
      obtain ⟨rfl, -⟩ := Prod.mk.inj heq
      refine (t.parent p' n' e hq).imp_right fun hp => List.mem_map.2 ⟨(p', .dir), hp, ?_⟩
      simp only [f]
      split <;> rfl
    valid := by
      intro q e' hmem
      obtain ⟨⟨q', e⟩, hq, heq⟩ := List.mem_map.1 hmem
      obtain ⟨rfl, -⟩ := Prod.mk.inj heq
      exact t.valid q' e hq }

theorem get_write (t : Tree) (p : Pos) (data : Bytes) (q : Pos) :
    (t.write p data).get q =
      if q = p then (t.get q).map (Entry.overwritten data) else t.get q := by
  by_cases hq : q = []
  · subst hq; simp [Entry.overwritten]
  · apply Option.ext
    intro a
    rw [get_eq_some_iff hq]
    have hmem : (q, a) ∈ (t.write p data).entries ↔
        ∃ e, (q, e) ∈ t.entries ∧ (if q = p then Entry.overwritten data e else e) = a := by
      simp only [write, List.mem_map, Prod.mk.injEq, Prod.exists]
      constructor
      · rintro ⟨q', e, hm, rfl, rfl⟩; exact ⟨e, hm, rfl⟩
      · rintro ⟨e, hm, rfl⟩; exact ⟨q, e, hm, rfl, rfl⟩
    rw [hmem]
    by_cases hqp : q = p
    · simp [hqp, ← get_eq_some_iff (hqp ▸ hq), Option.map_eq_some_iff]
    · simp [hqp, get_eq_some_iff hq]

/-- Nothing of a write is left once the file is gone. -/
theorem erase_write (t : Tree) (p : Pos) (data : Bytes) :
    (t.write p data).erase p = t.erase p := by
  have hnames : (t.write p data).names p = [] ↔ t.names p = [] := by
    simp only [names_eq_nil_iff, get_write]
    simp
  by_cases h : t.names p = []
  · obtain ⟨u, hu⟩ := Option.isSome_iff_exists.1 (erase_isSome_iff.2 (hnames.2 h))
    obtain ⟨v, hv⟩ := Option.isSome_iff_exists.1 (erase_isSome_iff.2 h)
    rw [hu, hv]
    refine congrArg some (ext_entries ?_)
    rw [entries_erase hu, entries_erase hv]
    simp only [write, List.filter_map, Function.comp_def]
    refine (List.map_congr_left fun x hx => ?_).trans (List.map_id _)
    have hne : x.1 ≠ p := by simpa using (List.mem_filter.1 hx).2
    simp [hne]
  · have hu : (t.write p data).erase p = none := by
      rw [← Option.not_isSome_iff_eq_none, erase_isSome_iff, hnames]
      exact h
    have hv : t.erase p = none := by
      rw [← Option.not_isSome_iff_eq_none, erase_isSome_iff]
      exact h
    rw [hu, hv]

/-- A write that leaves the file as it was leaves the tree as it was. -/
theorem write_eq_self_iff {t : Tree} {p : Pos} {old : Bytes} (hp : t.get p = some (.file old))
    (data : Bytes) : t.write p data = t ↔ overwrite data old = old := by
  constructor
  · intro h
    have hw := get_write t p data p
    rw [if_pos rfl, h, hp] at hw
    simpa [Entry.overwritten] using hw.symm
  · intro h
    apply ext_entries
    unfold write
    refine (List.map_congr_left fun x hx => ?_).trans (List.map_id _)
    obtain ⟨q, e⟩ := x
    have hpne : p ≠ [] := by rintro rfl; simp at hp
    by_cases hq : q = p
    · subst hq
      obtain rfl : e = .file old := by
        have := (get_eq_some_iff hpne).2 hx
        rw [hp] at this
        exact (Option.some.inj this).symm
      simp [Entry.overwritten, h]
    · simp [hq]

/-! ## Smaller trees -/

/-- `t ≤ u`: every entry of `t` is an entry of `u`, unchanged. -/
instance : LE Tree := ⟨fun t u => ∀ q e, t.get q = some e → u.get q = some e⟩

instance : Preorder Tree where
  le_refl _ _ _ h := h
  le_trans _ _ _ htu huv q e h := huv q e (htu q e h)

/-- Below `u`, an entry is either unchanged or gone. -/
theorem get_of_le {t u : Tree} (h : t ≤ u) (q : Pos) : t.get q = none ∨ t.get q = u.get q := by
  cases hg : t.get q with
  | none => exact Or.inl rfl
  | some e => exact Or.inr (h q e hg).symm

/-- What is gone stays gone in a smaller tree. -/
theorem get_eq_none_of_le {t u : Tree} (h : t ≤ u) {q : Pos} (hq : u.get q = none) :
    t.get q = none :=
  (get_of_le h q).elim id fun hsame => hsame.trans hq

theorem erase_le {t t' : Tree} {p : Pos} (hp : p ≠ []) (h : t.erase p = some t') : t' ≤ t := by
  intro q e hq
  rw [get_erase hp h] at hq
  split at hq
  · cases hq
  · exact hq

end Tree

end DistributedSystems.Fs
