import Mathlib.Data.List.Nodup
import Mathlib.Logic.Function.Basic

/-!
# Keyed lists

A list whose elements have distinct keys stands for a finite map from keys to elements. Appending
an element with a new key, replacing an element by one with its key and erasing an element are then
updates of the map at that key.
-/

namespace DistributedSystems.Support

variable {α κ : Type} (key : α → κ)

/-- No two elements have the same key. -/
def Distinct (l : List α) : Prop := (l.map key).Nodup

/-- Replacing an element by one with its key keeps the keys. -/
theorem map_set_key {key : α → κ} {l : List α} {a : α} {i : Nat} (hi : i < l.length)
    (ha : key a = key l[i]) : (l.set i a).map key = l.map key := by
  rw [List.map_set, ha]
  apply List.ext_getElem (by simp)
  intro n h1 h2
  rw [List.getElem_set]
  split
  · subst n; rw [List.getElem_map]
  · rfl

namespace Distinct

variable {key} {l : List α} {a : α} {i : Nat}

theorem nil : Distinct key ([] : List α) := List.nodup_nil

theorem set (h : Distinct key l) (hi : i < l.length) (ha : key a = key l[i]) :
    Distinct key (l.set i a) := by
  unfold Distinct
  rw [map_set_key hi ha]
  exact h

theorem eraseIdx (h : Distinct key l) (i : Nat) : Distinct key (l.eraseIdx i) :=
  List.Nodup.sublist ((List.eraseIdx_sublist l i).map key) h

/-- An element with the neighbours it has in the list. -/
theorem split (h : Distinct key l) (hi : i < l.length) :
    ∃ before after, l = before ++ l[i] :: after ∧ before.length = i ∧
      (∀ b ∈ before, key b ≠ key l[i]) ∧ ∀ b ∈ after, key b ≠ key l[i] := by
  have hl : l = l.take i ++ l[i] :: l.drop (i + 1) := by
    rw [List.getElem_cons_drop, List.take_append_drop]
  refine ⟨l.take i, l.drop (i + 1), hl, List.length_take_of_le (Nat.le_of_lt hi), ?_⟩
  unfold Distinct at h
  rw [hl, List.map_append, List.map_cons, List.nodup_append, List.nodup_cons] at h
  refine ⟨fun b hb => ?_, fun b hb he => ?_⟩
  · exact h.2.2 _ (List.mem_map_of_mem hb) _ (List.mem_cons_self ..)
  · exact h.2.1.1 (he ▸ List.mem_map_of_mem hb)

end Distinct

variable [DecidableEq κ]

/-- The first element with a key. -/
def lookup (l : List α) (k : κ) : Option α := l.find? fun a => key a = k

variable {key} {l : List α} {a : α} {i : Nat} {k : κ}

theorem lookup_eq_none_iff : lookup key l k = none ↔ ∀ a ∈ l, key a ≠ k := by
  simp [lookup]

theorem mem_keys_iff : k ∈ l.map key ↔ lookup key l k ≠ none := by
  rw [ne_eq, lookup_eq_none_iff, List.mem_map]
  push Not
  rfl

theorem Distinct.append (h : Distinct key l) (ha : lookup key l (key a) = none) :
    Distinct key (l ++ [a]) := by
  unfold Distinct
  rw [List.map_append, List.map_singleton, List.nodup_append]
  refine ⟨h, List.nodup_singleton _, fun k hk k' hk' => ?_⟩
  obtain ⟨b, hb, rfl⟩ := List.mem_map.1 hk
  rw [List.mem_singleton.1 hk']
  have hne := List.find?_eq_none.1 ha b hb
  simpa using hne

theorem lookup_getElem (h : Distinct key l) (hi : i < l.length) :
    lookup key l (key l[i]) = some l[i] := by
  obtain ⟨before, after, hl, -, hbefore, -⟩ := h.split hi
  generalize l[i] = a at *
  subst hl
  have hnone : lookup key before (key a) = none := lookup_eq_none_iff.2 hbefore
  unfold lookup at *
  rw [List.find?_append, hnone, Option.none_or, List.find?_cons_of_pos (by simp)]

/-- The index that a search for the key answers. -/
theorem findIdx?_key_eq_some (h : l.findIdx? (fun a => key a = k) = some i) :
    ∃ hi : i < l.length, key l[i] = k := by
  obtain ⟨hi, hk, -⟩ := List.findIdx?_eq_some_iff_getElem.1 h
  exact ⟨hi, by simpa using hk⟩

theorem findIdx?_key_eq_none (h : l.findIdx? (fun a => key a = k) = none) :
    lookup key l k = none := by
  rw [List.findIdx?_eq_none_iff] at h
  exact lookup_eq_none_iff.2 fun a ha => by simpa using h a ha

/-! ## Updates -/

theorem lookup_append_new (ha : lookup key l (key a) = none) :
    lookup key (l ++ [a]) = Function.update (lookup key l) (key a) (some a) := by
  funext k
  unfold lookup at *
  rw [List.find?_append]
  by_cases hk : k = key a
  · subst hk
    rw [ha, Function.update_self]
    simp
  · rw [Function.update_of_ne hk]
    simp [Ne.symm hk]

theorem lookup_set (h : Distinct key l) (hi : i < l.length) (ha : key a = key l[i]) :
    lookup key (l.set i a) = Function.update (lookup key l) (key l[i]) (some a) := by
  obtain ⟨before, after, hl, hlen, hbefore, -⟩ := h.split hi
  generalize l[i] = b at *
  subst hl
  funext k
  have hset : (before ++ b :: after).set i a = before ++ a :: after := by simp [← hlen]
  have hnone : lookup key before (key b) = none := lookup_eq_none_iff.2 hbefore
  rw [hset]
  unfold lookup at *
  rw [List.find?_append]
  by_cases hk : k = key b
  · subst hk
    rw [hnone, Function.update_self, List.find?_cons_of_pos (by simpa using ha)]
    rfl
  · rw [Function.update_of_ne hk, List.find?_append, List.find?_cons_of_neg, List.find?_cons_of_neg]
    · simpa using Ne.symm hk
    · simpa [ha] using Ne.symm hk

theorem lookup_eraseIdx (h : Distinct key l) (hi : i < l.length) :
    lookup key (l.eraseIdx i) = Function.update (lookup key l) (key l[i]) none := by
  obtain ⟨before, after, hl, hlen, hbefore, hafter⟩ := h.split hi
  generalize l[i] = b at *
  subst hl
  funext k
  have herase : (before ++ b :: after).eraseIdx i = before ++ after := by
    rw [List.eraseIdx_append_of_length_le (Nat.le_of_eq hlen)]
    simp [hlen]
  rw [herase]
  by_cases hk : k = key b
  · subst hk
    rw [Function.update_self]
    exact lookup_eq_none_iff.2 fun a ha => (List.mem_append.1 ha).elim (hbefore a) (hafter a)
  · rw [Function.update_of_ne hk]
    unfold lookup
    rw [List.find?_append, List.find?_append, List.find?_cons_of_neg]
    simpa using Ne.symm hk

theorem mem_keys_eraseIdx (h : Distinct key l) (hi : i < l.length) :
    k ∈ (l.eraseIdx i).map key ↔ k ∈ l.map key ∧ k ≠ key l[i] := by
  rw [mem_keys_iff, mem_keys_iff, lookup_eraseIdx h hi]
  by_cases hk : k = key l[i]
  · simp [hk]
  · simp [hk]

end DistributedSystems.Support
