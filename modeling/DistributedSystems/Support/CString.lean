import Mathlib.Data.List.Basic
import Mathlib.Data.List.Infix
import Mathlib.Data.Option.Basic
import Mathlib.Order.Basic

/-!
# C strings in arrays

`CBuffer` is an array of a given size together with the string that the calls of `string.h` and
`stdio.h` have put into it. The string is what the calls make it, however long, and `Fits` says that
it lies in the array with the zero at its end. `strcmpEq` and `strncmpEq` compare the starts of two
arrays, and `strcpyAt` and `stringAt` store and read a string inside an array, or fail when that
takes them outside.
-/

namespace DistributedSystems.Support

/-- An array of `size` characters, and the string that has been stored if any has. -/
structure CBuffer (α : Type) where
  size : Nat
  stored : Option (List α)
deriving DecidableEq

namespace CBuffer

variable {α : Type}

def malloc (size : Nat) : CBuffer α := ⟨size, none⟩

/-- `sprintf` of a string that is already put together. -/
def sprintf (s : List α) (b : CBuffer α) : CBuffer α := { b with stored := some s }

def snprintf (n : Nat) (s : List α) (b : CBuffer α) : CBuffer α :=
  { b with stored := some (s.take (n - 1)) }

def strncat (src : List α) (n : Nat) (b : CBuffer α) : CBuffer α :=
  { b with stored := b.stored.map (· ++ src.take n) }

/-- The string that a call gets from the array. -/
def string (b : CBuffer α) : List α := b.stored.getD []

/-- The string and the zero that ends it are no longer than the array. -/
def Fits (b : CBuffer α) : Prop := ∀ s ∈ b.stored, s.length + 1 ≤ b.size

variable {size n : Nat} {s src : List α} {b : CBuffer α}

@[simp] theorem string_sprintf : (b.sprintf s).string = s := rfl

@[simp] theorem string_strncat_sprintf :
    ((b.sprintf s).strncat src n).string = s ++ src.take n := rfl

@[simp] theorem size_malloc : (malloc size : CBuffer α).size = size := rfl

theorem fits_malloc : (malloc size : CBuffer α).Fits := fun _ hs => by cases hs

theorem fits_sprintf_iff : (b.sprintf s).Fits ↔ s.length + 1 ≤ b.size := by
  simp [Fits, sprintf]

/-- What `strncat` appends counts. -/
theorem fits_strncat_iff :
    ((b.sprintf s).strncat src n).Fits ↔ s.length + min n src.length + 1 ≤ b.size := by
  simp [Fits, sprintf, strncat]

/-- `snprintf` keeps a string that fits, and makes any other one fit. -/
theorem fits_snprintf (hn : 0 < n) (hb : n ≤ b.size) : (b.snprintf n s).Fits := by
  intro s' hs'
  obtain rfl := Option.some.inj hs'
  have hsize : (b.snprintf n s).size = b.size := rfl
  rw [List.length_take, hsize]
  omega

theorem string_snprintf (h : s.length + 1 ≤ n) : (b.snprintf n s).string = s :=
  List.take_of_length_le (by omega)

end CBuffer

/-! ## Comparing -/

section Compare

variable {α : Type} [DecidableEq α] {zero : α} {s t rest : List α}

/-- `strcmp(a, b) == 0`. -/
def strcmpEq (zero : α) : List α → List α → Bool
  | a :: as, b :: bs => a = b && (a = zero || strcmpEq zero as bs)
  | _, _ => false

/-- An array compares equal to a string when it starts with it and its zero. -/
theorem strcmpEq_iff (ht : zero ∉ t) :
    strcmpEq zero s (t ++ [zero]) = true ↔ t ++ [zero] <+: s := by
  induction t generalizing s with
  | nil =>
    cases s with
    | nil => simp [strcmpEq]
    | cons a s => simp [strcmpEq, eq_comm]
  | cons b t ih =>
    have hb : b ≠ zero := fun h => ht (h ▸ List.mem_cons_self)
    have ht' : zero ∉ t := fun h => ht (List.mem_cons_of_mem _ h)
    cases s with
    | nil => simp [strcmpEq]
    | cons a s =>
      rw [List.cons_append, List.cons_prefix_cons, ← ih ht']
      by_cases hab : a = b
      · subst hab
        simp [strcmpEq, hb]
      · simp [strcmpEq, hab, Ne.symm hab]

/-- `strncmp(a, b, n) == 0`. Nothing after a common zero is compared. -/
def strncmpEq (zero : α) : Nat → List α → List α → Bool
  | 0, _, _ => true
  | n + 1, a :: as, b :: bs => a = b && (a = zero || strncmpEq zero n as bs)
  | _ + 1, _, _ => false

/-- Comparing no more than a string without zeros asks for a start of the other one. -/
theorem strncmpEq_length_iff (hs : zero ∉ s) :
    strncmpEq zero s.length (s ++ rest) (t ++ [zero]) = true ↔ s <+: t := by
  induction s generalizing t with
  | nil => exact ⟨fun _ => List.nil_prefix, fun _ => rfl⟩
  | cons a s ih =>
    have ha : a ≠ zero := fun h => hs (h ▸ List.mem_cons_self)
    have hs' : zero ∉ s := fun h => hs (List.mem_cons_of_mem _ h)
    cases t with
    | nil => simp [strncmpEq, ha]
    | cons b t =>
      rw [List.cons_prefix_cons, ← ih hs']
      simp [strncmpEq, ha]

/-- With the zero that ends the other string, it is equality. -/
theorem strncmpEq_succ_iff (hs : zero ∉ s) (ht : zero ∉ t) :
    strncmpEq zero (t.length + 1) (s ++ zero :: rest) (t ++ [zero]) = true ↔ s = t := by
  induction t generalizing s with
  | nil =>
    cases s with
    | nil => simp [strncmpEq]
    | cons a s =>
      have ha : a ≠ zero := fun h => hs (h ▸ List.mem_cons_self)
      simp [strncmpEq, ha]
  | cons b t ih =>
    have hb : zero ≠ b := fun h => ht (h ▸ List.mem_cons_self)
    have ht' : zero ∉ t := fun h => ht (List.mem_cons_of_mem _ h)
    cases s with
    | nil => simp [strncmpEq, hb]
    | cons a s =>
      have ha : a ≠ zero := fun h => hs (h ▸ List.mem_cons_self)
      have hs' : zero ∉ s := fun h => hs (List.mem_cons_of_mem _ h)
      rw [List.cons.injEq, ← ih hs' ht']
      simp [strncmpEq, ha]

end Compare

/-! ## Strings inside an array -/

section Blocks

variable {α : Type} {zero : α} {s t bytes bytes' : List α} {o offset : Nat}

/-- The array after `strcpy` to an offset, unless that writes outside it. -/
def strcpyAt (zero : α) (offset : Nat) (s bytes : List α) : Option (List α) :=
  if offset + s.length + 1 ≤ bytes.length then
    some (bytes.take offset ++ (s ++ [zero] ++ bytes.drop (offset + s.length + 1)))
  else none

theorem strcpyAt_eq_some_iff :
    strcpyAt zero offset s bytes = some bytes' ↔ offset + s.length + 1 ≤ bytes.length ∧
      bytes.take offset ++ (s ++ [zero] ++ bytes.drop (offset + s.length + 1)) = bytes' := by
  unfold strcpyAt
  split
  · rename_i h
    rw [Option.some.injEq]
    exact ⟨fun he => ⟨h, he⟩, And.right⟩
  · rename_i h
    simp [h]

theorem length_strcpyAt (h : strcpyAt zero offset s bytes = some bytes') :
    bytes'.length = bytes.length := by
  obtain ⟨hle, rfl⟩ := strcpyAt_eq_some_iff.1 h
  simp only [List.length_append, List.length_take, List.length_drop, List.length_singleton]
  omega

variable [DecidableEq α]

/-- The string at the start of an array, if a zero ends it there. -/
def stringOf (zero : α) : List α → Option (List α)
  | [] => none
  | a :: as => if a = zero then some [] else (stringOf zero as).map (a :: ·)

/-- The string at an offset. -/
def stringAt (zero : α) (offset : Nat) (bytes : List α) : Option (List α) :=
  stringOf zero (bytes.drop offset)

theorem stringOf_eq_some_iff :
    stringOf zero bytes = some s ↔ zero ∉ s ∧ s ++ [zero] <+: bytes := by
  induction bytes generalizing s with
  | nil => simp [stringOf]
  | cons a bytes ih =>
    unfold stringOf
    by_cases ha : a = zero
    · subst ha
      rw [if_pos rfl]
      cases s with
      | nil => simp
      | cons b s =>
        rw [List.cons_append, List.cons_prefix_cons, List.mem_cons]
        simp only [Option.some.injEq, reduceCtorEq, false_iff, not_and, not_or]
        rintro ⟨hb, -⟩ rfl
        exact absurd rfl hb
    · rw [if_neg ha]
      cases s with
      | nil => simp [Ne.symm ha]
      | cons b s =>
        rw [List.cons_append, List.cons_prefix_cons, List.mem_cons, Option.map_eq_some_iff]
        constructor
        · rintro ⟨s', hs', heq⟩
          obtain ⟨rfl, rfl⟩ := List.cons.inj heq
          obtain ⟨hz, hp⟩ := ih.1 hs'
          exact ⟨fun h => h.elim (fun h => ha h.symm) hz, rfl, hp⟩
        · rintro ⟨hz, rfl, hp⟩
          exact ⟨s, ih.2 ⟨fun h => hz (Or.inr h), hp⟩, rfl⟩

theorem stringAt_eq_some_iff :
    stringAt zero o bytes = some s ↔ zero ∉ s ∧ s ++ [zero] <+: bytes.drop o :=
  stringOf_eq_some_iff

theorem strcmpEq_iff_stringAt (ht : zero ∉ t) :
    strcmpEq zero bytes (t ++ [zero]) = true ↔ stringAt zero 0 bytes = some t := by
  rw [strcmpEq_iff ht, stringAt_eq_some_iff, List.drop_zero]
  exact ⟨fun h => ⟨ht, h⟩, And.right⟩

/-- What has been copied is the string there. -/
theorem stringAt_strcpyAt (hs : zero ∉ s) (h : strcpyAt zero offset s bytes = some bytes') :
    stringAt zero offset bytes' = some s := by
  obtain ⟨hle, rfl⟩ := strcpyAt_eq_some_iff.1 h
  have hlen : (bytes.take offset).length = offset := by
    rw [List.length_take]
    omega
  rw [stringAt_eq_some_iff, List.drop_left' hlen]
  exact ⟨hs, List.prefix_append _ _⟩

/-- A string that ends before the offset, its zero included, stays. -/
theorem stringAt_strcpyAt_of_le (h : strcpyAt zero offset s bytes = some bytes')
    (ht : stringAt zero o bytes = some t) (hle : o + t.length + 1 ≤ offset) :
    stringAt zero o bytes' = some t := by
  obtain ⟨hfit, rfl⟩ := strcpyAt_eq_some_iff.1 h
  obtain ⟨hz, hp⟩ := stringAt_eq_some_iff.1 ht
  rw [stringAt_eq_some_iff, List.drop_append_of_le_length (by rw [List.length_take]; omega),
    List.drop_take]
  refine ⟨hz, List.IsPrefix.trans ?_ (List.prefix_append _ _)⟩
  rw [List.prefix_take_iff, List.length_append, List.length_singleton]
  exact ⟨hp, by omega⟩

end Blocks

end DistributedSystems.Support
