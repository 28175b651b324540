import Mathlib.Data.List.Nodup
import Mathlib.Logic.Function.Basic

/-!
# Chains of cells

Singly linked cells in a heap. `Segment heap p l q` are the cells that are met on the way from the
pointer `p` to the pointer `q`, each with its address, and a `Chain` is a segment that ends in NULL.
A chain is determined by its pointer (`Chain.unique`), so it never meets a cell twice
(`Chain.nodup`). A segment depends on its own cells only (`Segment.congr`), which gives what the
stores of an insertion at the end (`Chain.extend`) and of a deletion (`Chain.skip`) leave of it.
-/

namespace DistributedSystems.Support

variable {Addr α : Type}

structure Cell (Addr α : Type) where
  data : α
  next : Option Addr

/-- What is allocated. -/
abbrev Cells (Addr α : Type) : Type := Addr → Option (Cell Addr α)

/-- The cells between two pointers, in order. -/
inductive Segment (heap : Cells Addr α) : Option Addr → List (Addr × α) → Option Addr → Prop
  | nil (p : Option Addr) : Segment heap p [] p
  | cons {a : Addr} {x : α} {p q : Option Addr} {l : List (Addr × α)}
      (h : heap a = some ⟨x, p⟩) (hl : Segment heap p l q) :
      Segment heap (some a) ((a, x) :: l) q

abbrev Chain (heap : Cells Addr α) (p : Option Addr) (l : List (Addr × α)) : Prop :=
  Segment heap p l none

namespace Segment

variable {heap heap' : Cells Addr α} {p q r : Option Addr} {l l' : List (Addr × α)} {a : Addr}
  {x : α}

theorem nil_iff : Segment heap p [] q ↔ p = q := by
  constructor
  · intro h
    cases h
    rfl
  · rintro rfl
    exact .nil p

theorem cons_iff : Segment heap p ((a, x) :: l) q ↔
    p = some a ∧ ∃ r, heap a = some ⟨x, r⟩ ∧ Segment heap r l q := by
  constructor
  · intro h
    cases h with
    | cons h hl => exact ⟨rfl, _, h, hl⟩
  · rintro ⟨rfl, r, h, hl⟩
    exact .cons h hl

theorem append_iff : Segment heap p (l ++ l') q ↔
    ∃ r, Segment heap p l r ∧ Segment heap r l' q := by
  induction l generalizing p with
  | nil =>
    constructor
    · intro h
      exact ⟨p, .nil p, h⟩
    · rintro ⟨r, hr, h⟩
      rw [nil_iff.1 hr]
      exact h
  | cons c l ih =>
    obtain ⟨a, x⟩ := c
    rw [List.cons_append, cons_iff]
    constructor
    · rintro ⟨rfl, s, ha, hs⟩
      obtain ⟨r, hl, hl'⟩ := ih.1 hs
      exact ⟨r, .cons ha hl, hl'⟩
    · rintro ⟨r, hl, hl'⟩
      obtain ⟨rfl, s, ha, hs⟩ := cons_iff.1 hl
      exact ⟨rfl, s, ha, ih.2 ⟨r, hs, hl'⟩⟩

theorem append (h : Segment heap p l r) (h' : Segment heap r l' q) : Segment heap p (l ++ l') q :=
  append_iff.2 ⟨r, h, h'⟩

/-- A segment depends on its own cells only. -/
theorem congr (h : Segment heap p l q) (heq : ∀ a ∈ l.map Prod.fst, heap' a = heap a) :
    Segment heap' p l q := by
  induction h with
  | nil p => exact .nil p
  | cons ha _ ih =>
    rw [List.map_cons, List.forall_mem_cons] at heq
    exact .cons (heq.1.trans ha) (ih heq.2)

/-- The cells of a segment are allocated. -/
theorem isSome_of_mem (h : Segment heap p l q) (ha : a ∈ l.map Prod.fst) : (heap a).isSome := by
  induction h with
  | nil => exact absurd ha List.not_mem_nil
  | cons h _ ih =>
    rcases List.mem_cons.1 ha with rfl | ha
    · exact Option.isSome_of_eq_some h
    · exact ih ha

/-- A segment that has cells begins at one of them. -/
theorem head_mem (h : Segment heap (some a) l q) (hl : l ≠ []) : a ∈ l.map Prod.fst := by
  cases h with
  | nil => exact absurd rfl hl
  | cons h hl => exact List.mem_cons_self

variable [DecidableEq Addr]

/-- A cell outside a segment may be changed. -/
theorem update_of_notMem (h : Segment heap p l q) (ha : a ∉ l.map Prod.fst)
    (cell : Option (Cell Addr α)) : Segment (Function.update heap a cell) p l q := by
  refine h.congr fun b hb => Function.update_of_ne ?_ _ _
  rintro rfl
  exact ha hb

/-- The last cell of a segment gets another pointer. -/
theorem relink (h : Segment heap p (l ++ [(a, x)]) q) (ha : a ∉ l.map Prod.fst)
    (r : Option Addr) :
    Segment (Function.update heap a (some ⟨x, r⟩)) p (l ++ [(a, x)]) r := by
  obtain ⟨s, hl, hlast⟩ := append_iff.1 h
  obtain ⟨rfl, -⟩ := cons_iff.1 hlast
  exact (hl.update_of_notMem ha _).append (.cons (Function.update_self _ _ _) (.nil r))

end Segment

namespace Chain

variable {heap : Cells Addr α} {p : Option Addr} {l l' : List (Addr × α)}

theorem eq_nil_of_none (h : Chain heap none l) : l = [] := by
  cases h
  rfl

/-- The pointer determines the chain. -/
theorem unique (h : Chain heap p l) (h' : Chain heap p l') : l = l' := by
  induction l generalizing p l' with
  | nil =>
    obtain rfl := Segment.nil_iff.1 h
    cases h'
    rfl
  | cons c l ih =>
    obtain ⟨a, x⟩ := c
    obtain ⟨rfl, r, ha, hl⟩ := Segment.cons_iff.1 h
    cases h' with
    | cons ha' hl' =>
      rw [ha] at ha'
      obtain ⟨rfl, rfl⟩ := Cell.mk.inj (Option.some.inj ha')
      rw [ih hl hl']

/-- A segment with the pointer of a chain is the beginning of the chain. -/
theorem of_segment {before : List (Addr × α)} {q : Option Addr} (h : Chain heap p l)
    (hs : Segment heap p before q) : ∃ rest, l = before ++ rest ∧ Chain heap q rest := by
  induction hs generalizing l with
  | nil p => exact ⟨l, rfl, h⟩
  | cons ha _ ih =>
    cases h with
    | cons ha' hl' =>
      rw [ha] at ha'
      obtain ⟨rfl, rfl⟩ := Cell.mk.inj (Option.some.inj ha')
      obtain ⟨rest, rfl, hrest⟩ := ih hl'
      exact ⟨rest, rfl, hrest⟩

/-- A chain never comes back to a cell. -/
theorem nodup (h : Chain heap p l) : (l.map Prod.fst).Nodup := by
  induction l generalizing p with
  | nil => exact List.nodup_nil
  | cons c l ih =>
    obtain ⟨a, x⟩ := c
    obtain ⟨rfl, r, ha, hl⟩ := Segment.cons_iff.1 h
    rw [List.map_cons, List.nodup_cons]
    refine ⟨fun hmem => ?_, ih hl⟩
    obtain ⟨⟨b, y⟩, hy, hb⟩ := List.mem_map.1 hmem
    dsimp only at hb
    subst hb
    -- From its second visit the chain would be as long as from its first one.
    obtain ⟨before, after, rfl⟩ := List.append_of_mem hy
    obtain ⟨s, -, hs⟩ := Segment.append_iff.1 hl
    obtain ⟨rfl, -⟩ := Segment.cons_iff.1 hs
    have hlen := congrArg List.length (unique h hs)
    simp only [List.length_cons, List.length_append] at hlen
    omega

/-- A cell that is not allocated is on no chain. -/
theorem notMem_of_none {a : Addr} (h : Chain heap p l) (ha : heap a = none) :
    a ∉ l.map Prod.fst := by
  intro hmem
  have hsome := h.isSome_of_mem hmem
  rw [ha] at hsome
  cases hsome

variable [DecidableEq Addr] {a b : Addr} {x y : α} {q : Option Addr}
  {before after : List (Addr × α)}

/-- A new cell is linked behind the last one. -/
theorem extend (h : Chain heap p (before ++ [(b, y)])) (ha : heap a = none) (x : α) :
    Chain (Function.update (Function.update heap a (some ⟨x, none⟩)) b (some ⟨y, some a⟩)) p
      (before ++ [(b, y)] ++ [(a, x)]) := by
  have hnew := h.notMem_of_none ha
  have hne : b ≠ a := by
    rintro rfl
    exact hnew (by simp)
  have hbefore : b ∉ before.map Prod.fst := by
    have hdistinct := nodup h
    rw [List.map_append, List.map_singleton, List.nodup_append] at hdistinct
    exact fun hmem => hdistinct.2.2 b hmem b (List.mem_singleton_self b) rfl
  refine ((h.update_of_notMem hnew (some ⟨x, none⟩)).relink hbefore (some a)).append
    (.cons ?_ (.nil none))
  rw [Function.update_of_ne hne.symm, Function.update_self]

/-- A cell is taken out, the cell before it gets its pointer, and it is freed. -/
theorem skip (h : Chain heap p (before ++ [(b, y)] ++ (a, x) :: after))
    (ha : heap a = some ⟨x, q⟩) :
    Chain (Function.update (Function.update heap b (some ⟨y, q⟩)) a none) p
      (before ++ [(b, y)] ++ after) := by
  have hdistinct := nodup h
  rw [List.map_append, List.map_append, List.map_singleton, List.nodup_append] at hdistinct
  obtain ⟨hkept, hrest, hdisjoint⟩ := hdistinct
  have hafter : a ∉ after.map Prod.fst := (List.nodup_cons.1 hrest).1
  have hb := (List.nodup_append.1 hkept).2.2
  obtain ⟨r, hpassed, hrest⟩ := Segment.append_iff.1 h
  obtain ⟨rfl, q', ha', htail⟩ := Segment.cons_iff.1 hrest
  rw [ha] at ha'
  obtain ⟨-, rfl⟩ := Cell.mk.inj (Option.some.inj ha')
  have hbmem : b ∈ before.map Prod.fst ++ [b] := by simp
  have hbbefore : b ∉ before.map Prod.fst := fun hmem =>
    hb b hmem b (List.mem_singleton_self b) rfl
  have hbafter : b ∉ after.map Prod.fst := fun hmem =>
    hdisjoint b hbmem b (List.mem_cons_of_mem _ hmem) rfl
  have habefore : a ∉ before.map Prod.fst ++ [b] := fun hmem =>
    hdisjoint a hmem a List.mem_cons_self rfl
  refine ((hpassed.relink hbbefore q).append
    (htail.update_of_notMem hbafter (some ⟨y, q⟩))).update_of_notMem ?_ none
  rw [List.map_append, List.mem_append, not_or, List.map_append, List.map_singleton]
  exact ⟨habefore, hafter⟩

end Chain

end DistributedSystems.Support
