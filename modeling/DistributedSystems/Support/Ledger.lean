import Mathlib.Data.List.Induction
import Mathlib.Data.List.Nodup

/-!
# Ledgers

A ledger is the history of a table: values put under their keys and keys dropped. `table` reads the
table off the whole history, as the values whose put is the last entry of its key, in the order of
those puts. `table_snoc` is what one more entry does to it, so that a program that changes a table
step by step is compared with its history by one case for each kind of step.
-/

namespace DistributedSystems.Support.Ledger

variable {κ ν : Type}

inductive Entry (κ ν : Type)
  | put (value : ν)
  | drop (key : κ)
deriving DecidableEq, Repr

namespace Entry

def key (keyOf : ν → κ) : Entry κ ν → κ
  | put v => keyOf v
  | drop k => k

/-- What the entry adds to the table. -/
def added : Entry κ ν → List ν
  | put v => [v]
  | drop _ => []

end Entry

section Table

variable [DecidableEq κ] (keyOf : ν → κ)

/-- The values that are still there: no later entry has their key. -/
def table : List (Entry κ ν) → List ν
  | [] => []
  | e :: rest =>
    if ∀ e' ∈ rest, e'.key keyOf ≠ e.key keyOf then e.added ++ table rest else table rest

/-- **One more entry** takes the values of its key away and adds its own. -/
theorem table_snoc (ledger : List (Entry κ ν)) (e : Entry κ ν) :
    table keyOf (ledger ++ [e]) =
      (table keyOf ledger).filter (fun v => keyOf v ≠ e.key keyOf) ++ e.added := by
  induction ledger with
  | nil => simp [table]
  | cons e' ledger ih =>
    have hkeys : ∀ v ∈ e'.added, keyOf v = e'.key keyOf := by
      cases e' <;> simp [Entry.added, Entry.key]
    simp only [List.cons_append, table, List.mem_append, List.mem_singleton, or_imp, forall_and,
      forall_eq]
    by_cases hlast : ∀ e'' ∈ ledger, e''.key keyOf ≠ e'.key keyOf
    · by_cases he : e.key keyOf = e'.key keyOf
      · -- the new entry has the key of the first one
        have hgone : e'.added.filter (fun v => keyOf v ≠ e.key keyOf) = [] :=
          List.filter_eq_nil_iff.2 fun v hv => by simp [hkeys v hv, he]
        rw [if_neg fun h => h.2 he, if_pos hlast, List.filter_append, hgone, ih]
        rfl
      · have hkept : e'.added.filter (fun v => keyOf v ≠ e.key keyOf) = e'.added :=
          List.filter_eq_self.2 fun v hv => by simpa [hkeys v hv] using Ne.symm he
        rw [if_pos ⟨hlast, he⟩, if_pos hlast, List.filter_append, hkept, ih, List.append_assoc]
    · rw [if_neg fun h => hlast h.1, if_neg hlast, ih]

/-- No two values of a table have one key. -/
theorem nodup_table (ledger : List (Entry κ ν)) : ((table keyOf ledger).map keyOf).Nodup := by
  induction ledger using List.reverseRecOn with
  | nil => exact List.nodup_nil
  | append_singleton ledger e ih =>
    rw [table_snoc, List.map_append, List.nodup_append]
    refine ⟨ih.sublist (List.filter_sublist.map _), ?_, ?_⟩
    · cases e <;> simp [Entry.added]
    · rintro k hk k' hk' rfl
      obtain ⟨v, hv, rfl⟩ := List.mem_map.1 hk
      obtain ⟨w, hw, hkey⟩ := List.mem_map.1 hk'
      have hne : keyOf v ≠ e.key keyOf := by simpa using (List.mem_filter.1 hv).2
      cases e with
      | put x =>
        obtain rfl := List.mem_singleton.1 hw
        exact hne hkey.symm
      | drop k => cases hw

end Table

end DistributedSystems.Support.Ledger
