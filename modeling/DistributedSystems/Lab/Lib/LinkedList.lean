import DistributedSystems.Fs.Tree

/-!
# The list of connected users (`lib/LinkedList.c`)

The records in the order of the nodes. The `size` field of the list is the length. Allocations
succeed here.

`deleteElement` removes the first record of a name only, so what a deletion leaves is read off best
while the names are distinct (`deleteElement_of_nodup`).
-/

namespace DistributedSystems.Lab

open Fs

def maxSize : Nat := 256

def portSize : Nat := 7

/-- A record of the list: the C strings in its three arrays, of any length. What becomes of strings
that the arrays have no room for is seen on blocks of bytes (`RecordBlocks.lean`). -/
structure UserServerData where
  name : Bytes
  port : Bytes
  ipAddress : Bytes
deriving DecidableEq, Repr

def listGetSize (list : List UserServerData) : Nat := list.length

def addElement (data : UserServerData) (list : List UserServerData) : List UserServerData :=
  list ++ [data]

def deleteElement (data : Bytes) : List UserServerData → List UserServerData
  | [] => []
  | current :: next => if current.name = data then next else current :: deleteElement data next

/-- The copied array. The allocation of the array is the caller's to judge. -/
def getElements (list : List UserServerData) : List UserServerData := list

def findElementByname : List UserServerData → Bytes → Int
  | [], _ => 0
  | current :: next, data => if current.name = data then 1 else findElementByname next data

/-- The names in the list, in order. -/
def userNames (list : List UserServerData) : List Bytes := list.map (·.name)

variable {list : List UserServerData} {data : Bytes}

@[simp] theorem userNames_nil : userNames [] = [] := rfl

@[simp] theorem userNames_cons (d : UserServerData) (list : List UserServerData) :
    userNames (d :: list) = d.name :: userNames list := rfl

@[simp] theorem userNames_addElement (d : UserServerData) (list : List UserServerData) :
    userNames (addElement d list) = userNames list ++ [d.name] := by
  simp [userNames, addElement]

theorem findElementByname_eq (list : List UserServerData) (data : Bytes) :
    findElementByname list data = if data ∈ userNames list then 1 else 0 := by
  induction list with
  | nil => rfl
  | cons d list ih =>
    by_cases h : d.name = data
    · simp [findElementByname, h]
    · simp [findElementByname, h, ih, Ne.symm h]

@[simp] theorem findElementByname_ne_zero_iff :
    findElementByname list data ≠ 0 ↔ data ∈ userNames list := by
  rw [findElementByname_eq]
  split <;> simp_all

@[simp] theorem findElementByname_eq_zero_iff :
    findElementByname list data = 0 ↔ data ∉ userNames list := by
  rw [← not_iff_not, ← ne_eq, findElementByname_ne_zero_iff, not_not]

/-- Deleting a name that is not in the list changes nothing. -/
theorem deleteElement_of_notMem (h : data ∉ userNames list) : deleteElement data list = list := by
  induction list with
  | nil => rfl
  | cons d list ih =>
    rw [userNames_cons, List.mem_cons, not_or] at h
    unfold deleteElement
    rw [if_neg (Ne.symm h.1), ih h.2]

theorem length_deleteElement (h : data ∈ userNames list) :
    (deleteElement data list).length + 1 = list.length := by
  induction list with
  | nil => simp at h
  | cons d list ih =>
    unfold deleteElement
    split
    · rfl
    · rename_i hd
      rw [userNames_cons, List.mem_cons] at h
      rw [List.length_cons, List.length_cons, ih (h.resolve_left (Ne.symm hd))]

theorem deleteElement_eq_self_iff : deleteElement data list = list ↔ data ∉ userNames list := by
  refine ⟨fun h hmem => ?_, deleteElement_of_notMem⟩
  have hlen := length_deleteElement hmem
  rw [h] at hlen
  omega

theorem addElement_ne (d : UserServerData) (list : List UserServerData) :
    addElement d list ≠ list := fun h => by
  have hlen := congrArg List.length h
  simp [addElement] at hlen

theorem deleteElement_sublist (data : Bytes) (list : List UserServerData) :
    (deleteElement data list).Sublist list := by
  induction list with
  | nil => exact List.Sublist.refl _
  | cons d list ih =>
    unfold deleteElement
    split
    · exact List.sublist_cons_self _ _
    · exact ih.cons_cons _

/-- With distinct names, a deletion removes every record of the name. -/
theorem deleteElement_of_nodup (h : (userNames list).Nodup) :
    deleteElement data list = list.filter fun d => d.name ≠ data := by
  induction list with
  | nil => rfl
  | cons d list ih =>
    rw [userNames_cons, List.nodup_cons] at h
    unfold deleteElement
    split
    · rename_i hd
      have hall : ∀ x ∈ list, x.name ≠ data := fun x hx he =>
        h.1 (List.mem_map.2 ⟨x, hx, he.trans hd.symm⟩)
      rw [List.filter_cons_of_neg (by simp [hd])]
      exact (List.filter_eq_self.2 fun x hx => by simpa using hall x hx).symm
    · rename_i hd
      rw [List.filter_cons_of_pos (by simpa using hd), ih h.2]

/-- A deletion leaves the records of all other names, in their order. -/
theorem filter_deleteElement (data : Bytes) (list : List UserServerData) :
    (deleteElement data list).filter (fun d => d.name ≠ data) =
      list.filter fun d => d.name ≠ data := by
  induction list with
  | nil => rfl
  | cons d list ih =>
    unfold deleteElement
    split
    · rename_i hd
      rw [List.filter_cons_of_neg (by simp [hd])]
    · rename_i hd
      rw [List.filter_cons_of_pos (by simpa using hd), List.filter_cons_of_pos (by simpa using hd),
        ih]

theorem nodup_addElement (h : (userNames list).Nodup) {d : UserServerData}
    (hd : d.name ∉ userNames list) : (userNames (addElement d list)).Nodup := by
  rw [userNames_addElement, List.nodup_append]
  refine ⟨h, List.nodup_singleton _, ?_⟩
  rintro u hu v hv rfl
  exact hd (List.mem_singleton.1 hv ▸ hu)

theorem nodup_deleteElement (h : (userNames list).Nodup) (data : Bytes) :
    (userNames (deleteElement data list)).Nodup :=
  h.sublist ((deleteElement_sublist data list).map _)

theorem mem_userNames_deleteElement (h : (userNames list).Nodup) {u : Bytes} :
    u ∈ userNames (deleteElement data list) ↔ u ∈ userNames list ∧ u ≠ data := by
  rw [deleteElement_of_nodup h]
  simp only [userNames, List.mem_map, List.mem_filter, decide_eq_true_eq]
  constructor
  · rintro ⟨d, ⟨hd, hne⟩, rfl⟩; exact ⟨⟨d, hd, rfl⟩, hne⟩
  · rintro ⟨⟨d, hd, rfl⟩, hne⟩; exact ⟨d, ⟨hd, hne⟩, rfl⟩

end DistributedSystems.Lab
