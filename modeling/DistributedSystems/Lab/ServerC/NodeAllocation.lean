import DistributedSystems.Lab.ServerRpc.Daemon
import Mathlib.Algebra.Group.Int.Defs
import Mathlib.Algebra.Group.Nat.Defs

/-!
# Nodes that cannot be allocated (`lib/LinkedList.c`)

The list of connected users with its `size` field, whose nodes may not be allocated. `add_element`
has no result: it counts the node that `create_node` has not made, and both servers answer CONNECT
with success. Whether CONNECT agrees with the list that it leaves is the outcome of that allocation
(`connect_added_iff`).
-/

namespace DistributedSystems.Lab.Sized

open Fs

/-! ## The list -/

/-- The records of the nodes, in order, and the `size` field. -/
structure SizedList where
  nodes : List UserServerData
  size : Int
deriving DecidableEq, Repr

/-- The field counts the nodes. -/
def SizedList.Counted (list : SizedList) : Prop := list.size = list.nodes.length

instance : DecidablePred SizedList.Counted := fun list =>
  inferInstanceAs (Decidable (list.size = list.nodes.length))

def createNode (allocated : Bool) (data : UserServerData) : Option UserServerData :=
  if allocated then some data else none

/-- `size++` on an `int`. -/
def increment (size : Int) : Int := (size + 1).bmod (2 ^ 32)

def addElement (allocated : Bool) (data : UserServerData) (list : SizedList) : SizedList :=
  match list.nodes with
  | [] => ⟨(createNode allocated data).toList, increment list.size⟩
  -- a NULL stored to the `next` of the last node is the NULL that was there
  | current :: rest =>
    ⟨current :: rest ++ (createNode allocated data).toList, increment list.size⟩

/-- What the loop of a listing reads of the array of `get_elements`, whose unwritten elements are
none. -/
def readElements (list : SizedList) : List (Option UserServerData) :=
  (List.range list.size.toNat).map fun ii => list.nodes[ii]?

theorem addElement_nodes (allocated : Bool) (data : UserServerData) (list : SizedList) :
    (addElement allocated data list).nodes =
      list.nodes ++ if allocated then [data] else [] := by
  unfold addElement createNode
  cases list.nodes <;> cases allocated <;> simp

theorem addElement_size (allocated : Bool) (data : UserServerData) (list : SizedList) :
    (addElement allocated data list).size = increment list.size := by
  unfold addElement
  cases list.nodes <;> rfl

theorem increment_eq_iff (n : Nat) : increment n = n + 1 ↔ n + 1 < 2 ^ 31 := by
  unfold increment
  rw [Int.bmod_def]
  split <;> omega

/-- The field counts one node more; there is one more when it has been allocated. -/
theorem addElement_counted_iff {list : SizedList} (h : list.Counted) (allocated : Bool)
    (data : UserServerData) :
    (addElement allocated data list).Counted ↔
      allocated = true ∧ list.nodes.length + 1 < 2 ^ 31 := by
  unfold SizedList.Counted at h ⊢
  rw [addElement_size, addElement_nodes, h]
  cases allocated with
  | false =>
    refine iff_of_false ?_ (by simp)
    simp only [Bool.false_eq_true, if_false, List.append_nil, increment]
    rw [Int.bmod_def]
    split <;> omega
  | true =>
    have hlength : ((list.nodes ++ [data]).length : Int) = list.nodes.length + 1 := by simp
    rw [if_pos rfl, hlength, increment_eq_iff]
    simp

/-- A listing reads only elements that have been written. -/
theorem readElements_of_counted {list : SizedList} (h : list.Counted) :
    readElements list = list.nodes.map some := by
  unfold SizedList.Counted at h
  unfold readElements
  rw [h, Int.toNat_natCast]
  refine List.ext_getElem (by simp) fun ii h₁ h₂ => ?_
  have hii : ii < list.nodes.length := by simpa using h₁
  simp [hii]

/-- After a node that has not been allocated, a listing reads one element that has not been
written. -/
theorem readElements_addElement_false {list : SizedList} (h : list.Counted)
    (hlength : list.nodes.length + 1 < 2 ^ 31) (data : UserServerData) :
    readElements (addElement false data list) = list.nodes.map some ++ [none] := by
  have hsize : (addElement false data list).size = (list.nodes.length + 1 : Nat) := by
    rw [addElement_size, h, (increment_eq_iff _).2 hlength]
    rfl
  have hnodes : (addElement false data list).nodes = list.nodes := by
    rw [addElement_nodes]
    exact List.append_nil _
  unfold readElements
  rw [hsize, hnodes, Int.toNat_natCast, List.range_succ, List.map_append]
  have hwritten := readElements_of_counted h
  unfold readElements at hwritten
  rw [h, Int.toNat_natCast] at hwritten
  rw [hwritten]
  simp

/-! ## CONNECT -/

/-- `connect_user`, once its fields have been read. -/
def connectUser (c : SysCalls) (address : Option Bytes) (allocated : Bool)
    (userName userPort : Bytes) (t : Tree) (list : SizedList) : Int × SizedList :=
  let registered := isusrRegistered c t userName
  if registered = 1 then
    if findElementByname list.nodes userName ≠ 0 then (userConnected, list)
    else
      match address with
      | none => (otherError3, list)
      | some clientAddress =>
        (success, addElement allocated ⟨userName, userPort, clientAddress⟩ list)
  else if registered = 0 then (userNotRegistered, list)
  else (otherError3, list)

def connectUserRpc1Svc (c : SysCalls) (allocated : Bool) (arg1 : ConnectArguments) (t : Tree)
    (list : SizedList) : Int × SizedList :=
  if isusrRegistered c t arg1.name = 0 then (1, list)
  else if findElementByname list.nodes arg1.name ≠ 0 then (2, list)
  else (0, addElement allocated ⟨arg1.name, arg1.port, arg1.ip⟩ list)

section Refinement

variable (c : SysCalls) (t : Tree) (list : SizedList)

/-- With nodes that can be allocated, CONNECT is that of the list without its field. -/
theorem connectUser_allocated (address : Option Bytes) (userName userPort : Bytes) :
    ((connectUser c address true userName userPort t list).1,
        (connectUser c address true userName userPort t list).2.nodes) =
      ((Lab.connectUser.act c address userName userPort ⟨t, list.nodes⟩).1,
        (Lab.connectUser.act c address userName userPort ⟨t, list.nodes⟩).2.connected) := by
  unfold connectUser Lab.connectUser.act
  dsimp only
  split
  · split
    · rfl
    · cases address with
      | none => rfl
      | some clientAddress => exact congrArg (Prod.mk _) (addElement_nodes true _ list)
  · split <;> rfl

theorem connectUserRpc1Svc_allocated (arg1 : ConnectArguments) :
    ((connectUserRpc1Svc c true arg1 t list).1,
        (connectUserRpc1Svc c true arg1 t list).2.nodes) =
      ((Lab.connectUserRpc1Svc c arg1 ⟨t, list.nodes⟩).1,
        (Lab.connectUserRpc1Svc c arg1 ⟨t, list.nodes⟩).2.connected) := by
  unfold connectUserRpc1Svc Lab.connectUserRpc1Svc
  dsimp only
  split
  · rfl
  · split
    · rfl
    · exact congrArg (Prod.mk _) (addElement_nodes true _ list)

end Refinement

/-! ## Status and list -/

/-- What a CONNECT of a user says about the list that it leaves. -/
structure Agrees (list : SizedList) (userName : Bytes) (r : Int × SizedList) : Prop where
  counted : r.2.Counted
  success_iff : r.1 = 0 ↔ userName ∈ userNames r.2.nodes
  unchanged : r.1 ≠ 0 → r.2 = list

section Agreement

variable {c : SysCalls} {t : Tree} {list : SizedList} {userName : Bytes}

/-- A success with an added user. -/
theorem agrees_added_iff (h : list.Counted) (allocated : Bool) (userPort ip : Bytes) :
    Agrees list userName (0, addElement allocated ⟨userName, userPort, ip⟩ list) ↔
      allocated = true ∧ list.nodes.length + 1 < 2 ^ 31 := by
  constructor
  · intro hagrees
    exact (addElement_counted_iff h allocated _).1 hagrees.counted
  · intro hallocated
    refine ⟨(addElement_counted_iff h allocated _).2 hallocated, ?_, fun hne => absurd rfl hne⟩
    refine iff_of_true rfl ?_
    rw [addElement_nodes, hallocated.1, if_pos rfl]
    simp [userNames]

theorem agrees_refused (h : list.Counted) (hconnected : userName ∉ userNames list.nodes)
    {status : Int} (hstatus : status ≠ 0) : Agrees list userName (status, list) :=
  ⟨h, iff_of_false hstatus hconnected, fun _ => rfl⟩

/-- **When CONNECT agrees with the list**, for a registered user who is not connected. -/
theorem connect_added_iff (hcounted : list.Counted) (hregistered : isusrRegistered c t userName = 1)
    (hconnected : userName ∉ userNames list.nodes) (userPort : Bytes) (allocated : Bool) :
    (∀ address,
      Agrees list userName (connectUser c address allocated userName userPort t list) ↔
        address = none ∨ allocated = true ∧ list.nodes.length + 1 < 2 ^ 31) ∧
    ∀ ip,
      Agrees list userName (connectUserRpc1Svc c allocated ⟨userName, userPort, ip⟩ t list) ↔
        allocated = true ∧ list.nodes.length + 1 < 2 ^ 31 := by
  have hfind : findElementByname list.nodes userName = 0 :=
    findElementByname_eq_zero_iff.2 hconnected
  constructor
  · intro address
    simp only [connectUser, hregistered, hfind, if_true, ne_eq, not_true_eq_false, if_false]
    cases address with
    | none => exact iff_of_true (agrees_refused hcounted hconnected (by decide)) (Or.inl rfl)
    | some clientAddress =>
      refine (agrees_added_iff hcounted allocated userPort clientAddress).trans ?_
      simp
  · intro ip
    simp only [connectUserRpc1Svc, hregistered, hfind, ne_eq, not_true_eq_false, if_false,
      Int.one_ne_zero]
    exact agrees_added_iff hcounted allocated userPort ip

end Agreement

/-- A tree with alice's directory. -/
def aliceTree : Tree := ((posix []).mkdir usersTree (userPath (cstring "alice"))).getD .empty

theorem alice_added :
    Agrees ⟨[], 0⟩ (cstring "alice") (connectUser (posix []) (some (cstring "127.0.0.1")) true
        (cstring "alice") (cstring "4000") aliceTree ⟨[], 0⟩) ∧
      Agrees ⟨[], 0⟩ (cstring "alice") (connectUserRpc1Svc (posix []) true
        ⟨cstring "alice", cstring "4000", cstring "127.0.0.1"⟩ aliceTree ⟨[], 0⟩) :=
  have h := @connect_added_iff (posix []) aliceTree ⟨[], 0⟩ (cstring "alice") rfl (by decide)
    (by decide) (cstring "4000") true
  ⟨(h.1 _).2 (Or.inr ⟨rfl, by decide⟩), (h.2 _).2 ⟨rfl, by decide⟩⟩

/-- Without its node, alice is told that she is connected; she is counted and not in the list. -/
theorem alice_not_added :
    let r := connectUser (posix []) (some (cstring "127.0.0.1")) false (cstring "alice")
      (cstring "4000") aliceTree ⟨[], 0⟩
    let r' := connectUserRpc1Svc (posix []) false
      ⟨cstring "alice", cstring "4000", cstring "127.0.0.1"⟩ aliceTree ⟨[], 0⟩
    r = (0, ⟨[], 1⟩) ∧ ¬ Agrees ⟨[], 0⟩ (cstring "alice") r ∧
      r' = (0, ⟨[], 1⟩) ∧ ¬ Agrees ⟨[], 0⟩ (cstring "alice") r' := by
  intro r r'
  have hr : r = (0, ⟨[], 1⟩) := by decide
  have hr' : r' = (0, ⟨[], 1⟩) := by decide
  have hcounted : ¬ SizedList.Counted ⟨[], 1⟩ := by decide
  rw [hr, hr']
  exact ⟨rfl, fun hagrees => hcounted hagrees.counted, rfl,
    fun hagrees => hcounted hagrees.counted⟩

end DistributedSystems.Lab.Sized
