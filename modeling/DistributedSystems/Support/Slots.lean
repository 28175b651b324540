import Mathlib.Data.List.Infix

/-!
# Slots

A block of slots that a program fills from the front, with the two loops that such programs have:
one that looks for an element and one that closes the gap of a removed one. An access that is out of
range, or that reads a slot nothing was stored in, has no result. `Fills slots l` says that the
first slots hold the list `l`, and under it the accesses are those of `l`.
-/

namespace DistributedSystems.Support

variable {α : Type}

abbrev Slots (α : Type) := List (Option α)

namespace Slots

/-- Read a slot. -/
def read (slots : Slots α) (i : Nat) : Option α := slots[i]?.join

/-- Store in a slot. -/
def store (slots : Slots α) (i : Nat) (a : α) : Option (Slots α) :=
  if i < slots.length then some (slots.set i (some a)) else none

/-- Look at `n` slots from the `i`-th on for one that meets the condition. -/
def search (p : α → Bool) (slots : Slots α) : Nat → Nat → Option (Option Nat)
  | 0, _ => some none
  | n + 1, i =>
    match slots.read i with
    | none => none
    | some a => if p a then some (some i) else search p slots n (i + 1)

/-- Move each of the `n` slots after the `i`-th one place to the front. -/
def closeGap : Slots α → Nat → Nat → Option (Slots α)
  | slots, 0, _ => some slots
  | slots, n + 1, i =>
    match slots.read (i + 1) with
    | none => none
    | some a =>
      match slots.store i a with
      | none => none
      | some slots' => closeGap slots' n (i + 1)

/-- The first slots hold the elements of the list. -/
def Fills (slots : Slots α) (l : List α) : Prop := l.map some <+: slots

namespace Fills

variable {slots : Slots α} {l : List α} {a : α} {i : Nat}

theorem nil (slots : Slots α) : Fills slots [] := List.nil_prefix

theorem length_le (h : Fills slots l) : l.length ≤ slots.length := by
  have hle := List.IsPrefix.length_le h
  rwa [List.length_map] at hle

theorem read_eq (h : Fills slots l) (hi : i < l.length) : slots.read i = l[i]? := by
  obtain ⟨tail, rfl⟩ := h
  unfold read
  rw [List.getElem?_append_left (by simpa using hi)]
  simp [hi]

/-- More slots at the end. -/
theorem append (h : Fills slots l) (more : Slots α) : Fills (slots ++ more) l :=
  List.IsPrefix.trans h (List.prefix_append slots more)

/-- The first slot behind the elements takes another one. -/
theorem push (h : Fills slots l) (hroom : l.length < slots.length) :
    ∃ slots', slots.store l.length a = some slots' ∧ Fills slots' (l ++ [a]) ∧
      slots'.length = slots.length := by
  refine ⟨slots.set l.length (some a), if_pos hroom, ?_, List.length_set⟩
  obtain ⟨tail, rfl⟩ := h
  cases tail with
  | nil => simp at hroom
  | cons x tail => exact ⟨tail, by simp⟩

theorem set (h : Fills slots l) (hi : i < l.length) :
    ∃ slots', slots.store i a = some slots' ∧ Fills slots' (l.set i a) ∧
      slots'.length = slots.length := by
  refine ⟨slots.set i (some a), if_pos (hi.trans_le h.length_le), ?_, List.length_set⟩
  obtain ⟨tail, rfl⟩ := h
  refine ⟨tail, ?_⟩
  rw [List.set_append_left _ _ (by simpa using hi), List.map_set]

end Fills

/-! ## The loops -/

theorem search_append (p : α → Bool) (before l : List α) (tail : Slots α) :
    search p (before.map some ++ (l.map some ++ tail)) l.length before.length =
      some ((l.findIdx? p).map (· + before.length)) := by
  induction l generalizing before with
  | nil => rfl
  | cons a l ih =>
    have hread : read (before.map some ++ ((a :: l).map some ++ tail)) before.length = some a := by
      simp [read]
    have hrest := ih (before ++ [a])
    simp only [List.map_append, List.map_cons, List.map_nil, List.append_assoc, List.cons_append,
      List.nil_append, List.length_append, List.length_singleton] at hrest
    simp only [search, List.length_cons, hread, List.findIdx?_cons]
    split
    · simp
    · rw [List.map_cons, List.cons_append, hrest, Option.map_map]
      congr 2
      funext n
      simp only [Function.comp_apply]
      omega

/-- The search finds the first element that meets the condition. -/
theorem Fills.search_eq {slots : Slots α} {l : List α} (h : Fills slots l) (p : α → Bool) :
    search p slots l.length 0 = some (l.findIdx? p) := by
  obtain ⟨tail, rfl⟩ := h
  have hsearch := search_append p [] l tail
  simpa using hsearch

theorem closeGap_append (before l : List α) (a : α) (tail : Slots α) :
    ∃ last, closeGap (before.map some ++ some a :: (l.map some ++ tail)) l.length before.length =
      some ((before ++ l).map some ++ last :: tail) := by
  induction l generalizing before a with
  | nil => exact ⟨some a, by simp [closeGap]⟩
  | cons b l ih =>
    obtain ⟨last, hlast⟩ := ih (before ++ [b]) b
    refine ⟨last, ?_⟩
    have hread : read (before.map some ++ some a :: ((b :: l).map some ++ tail))
        (before.length + 1) = some b := by
      simp [read]
    have hstore : store (before.map some ++ some a :: ((b :: l).map some ++ tail)) before.length b =
        some ((before ++ [b]).map some ++ some b :: (l.map some ++ tail)) := by
      rw [store, if_pos (by simp)]
      simp
    simp only [closeGap, List.length_cons, hread, hstore]
    rw [List.length_append, List.length_singleton] at hlast
    rw [hlast, List.append_assoc, List.singleton_append]

/-- Closing the gap takes the element out of the list. -/
theorem Fills.closeGap {slots : Slots α} {l : List α} {i : Nat} (h : Fills slots l)
    (hi : i < l.length) :
    ∃ slots', slots.closeGap (l.length - 1 - i) i = some slots' ∧ Fills slots' (l.eraseIdx i) ∧
      slots'.length = slots.length := by
  obtain ⟨tail, rfl⟩ := h
  obtain ⟨last, hlast⟩ := closeGap_append (l.take i) (l.drop (i + 1)) l[i] tail
  have hbefore : (l.take i).length = i := List.length_take_of_le hi.le
  have hafter : (l.drop (i + 1)).length = l.length - 1 - i := by
    rw [List.length_drop]; omega
  have hl : l.map some = (l.take i).map some ++ some l[i] :: (l.drop (i + 1)).map some := by
    rw [← List.map_cons, ← List.map_append, List.getElem_cons_drop, List.take_append_drop]
  rw [hbefore, hafter] at hlast
  rw [hl, List.append_assoc, List.cons_append, hlast, ← List.eraseIdx_eq_take_drop_succ]
  refine ⟨_, rfl, List.prefix_append _ _, ?_⟩
  simp only [List.length_append, List.length_map, List.length_cons, List.length_eraseIdx_of_lt hi,
    hbefore, hafter]
  omega

end Slots

end DistributedSystems.Support
