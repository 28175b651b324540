import DistributedSystems.Lab.Lib.LinkedList
import DistributedSystems.Support.Chains
import Mathlib.Algebra.Group.Int.Defs
import Mathlib.Algebra.Group.Nat.Defs

/-!
# The nodes of the list (`lib/LinkedList.c`)

The list of connected users as it lies in the heap: a `head`, nodes with a `next`, and a `size` that
is an `int`. A loop over the nodes takes as many rounds as it is given, and an access to a cell that
is not allocated, or behind the array of `get_elements`, stops it. On a heap list that represents a
sequence every operation does what `Lab.Lib.LinkedList` says of the sequence; only the `size` of
`add_element` cannot count a node that makes `2^31` of them (`refines_iff`).
-/

namespace DistributedSystems.Lab.HeapList

open Fs Support

variable {Addr : Type}

/-- The type `List`. -/
structure UserList (Addr : Type) where
  head : Option Addr
  size : Int32
deriving DecidableEq

abbrev Node (Addr : Type) : Type := Cell Addr UserServerData

abbrev Heap (Addr : Type) : Type := Cells Addr UserServerData

inductive Stop
  /-- More rounds of a loop are needed. -/
  | rounds
  /-- A cell that is not allocated is accessed. -/
  | unallocated
  /-- An element behind the array is written. -/
  | outside
deriving DecidableEq, Repr

/-- The node that a pointer points to. -/
def deref (heap : Heap Addr) (current : Addr) : Except Stop (Node Addr) :=
  match heap current with
  | none => .error .unallocated
  | some node => .ok node

section Operations

variable [DecidableEq Addr]

/-- `create_node`, by what `malloc` returns. -/
def createNode (newNode : Option Addr) (data : UserServerData) (heap : Heap Addr) :
    Option Addr × Heap Addr :=
  match newNode with
  | none => (none, heap)
  | some a => (some a, Function.update heap a (some ⟨data, none⟩))

/-- `current->next = next`. -/
def setNext (heap : Heap Addr) (current : Addr) (next : Option Addr) : Except Stop (Heap Addr) := do
  let node ← deref heap current
  return Function.update heap current (some ⟨node.data, next⟩)

/-- `free`. -/
def free (heap : Heap Addr) (current : Addr) : Except Stop (Heap Addr) := do
  let _ ← deref heap current
  return Function.update heap current none

/-- The loop of `add_element`: the node without a next one. -/
def lastNode : Nat → Addr → Heap Addr → Except Stop Addr
  | 0, _, _ => .error .rounds
  | rounds + 1, current, heap => do
    let node ← deref heap current
    match node.next with
    | none => return current
    | some next => lastNode rounds next heap

def addElement (rounds : Nat) (newNode : Option Addr) (data : UserServerData) (list : UserList Addr)
    (heap : Heap Addr) : Except Stop (UserList Addr × Heap Addr) :=
  match list.head with
  | none =>
    let (node, heap) := createNode newNode data heap
    .ok (⟨node, list.size + 1⟩, heap)
  | some head => do
    let current ← lastNode rounds head heap
    let (node, heap) := createNode newNode data heap
    let heap ← setNext heap current node
    return (⟨some head, list.size + 1⟩, heap)

/-- The loop of `delete_element`. -/
def deleteLoop (data : Bytes) :
    Nat → Option Addr → Option Addr → UserList Addr → Heap Addr →
      Except Stop (UserList Addr × Heap Addr)
  | _, _, none, list, heap => .ok (list, heap)
  | 0, _, some _, _, _ => .error .rounds
  | rounds + 1, previous, some current, list, heap => do
    let node ← deref heap current
    if node.data.name = data then
      match previous with
      | none => .error .unallocated
      | some previous =>
        let heap ← setNext heap previous node.next
        let node ← deref heap current
        let head := if some current = list.head then node.next else list.head
        let heap ← free heap current
        return (⟨head, list.size - 1⟩, heap)
    else deleteLoop data rounds (some current) node.next list heap

def deleteElement (rounds : Nat) (data : Bytes) (list : UserList Addr) (heap : Heap Addr) :
    Except Stop (UserList Addr × Heap Addr) :=
  deleteLoop data rounds list.head list.head list heap

end Operations

/-- The loop of `get_elements`. Elements that have not been written are none. -/
def copyLoop :
    Nat → Option Addr → Heap Addr → Nat → List (Option UserServerData) →
      Except Stop (List (Option UserServerData))
  | _, none, _, _, users => .ok users
  | 0, some _, _, _, _ => .error .rounds
  | rounds + 1, some current, heap, ii, users => do
    let node ← deref heap current
    if ii < users.length then
      copyLoop rounds node.next heap (ii + 1) (users.set ii (some node.data))
    else .error .outside

/-- `get_elements`, whose array is allocated. -/
def getElements (rounds : Nat) (list : UserList Addr) (heap : Heap Addr) :
    Except Stop (List (Option UserServerData)) :=
  copyLoop rounds list.head heap 0 (List.replicate list.size.toInt.toNat none)

/-- The loop of the two searches: the first node of the name. -/
def findNode (name : Bytes) : Nat → Option Addr → Heap Addr → Except Stop (Option Addr)
  | _, none, _ => .ok none
  | 0, some _, _ => .error .rounds
  | rounds + 1, some current, heap => do
    let node ← deref heap current
    if node.data.name = name then return some current
    else findNode name rounds node.next heap

def findElementByname (rounds : Nat) (list : UserList Addr) (data : Bytes) (heap : Heap Addr) :
    Except Stop Int := do
  let found ← findNode data rounds list.head heap
  return if found.isSome then 1 else 0

/-- `get_element_byname`. The pointer to a node is that to its record. -/
def getElementByname (rounds : Nat) (list : UserList Addr) (name : Bytes) (heap : Heap Addr) :
    Except Stop (Option Addr) :=
  findNode name rounds list.head heap

/-- The list is well-formed and its records are the sequence: a chain from `head`, with as many
nodes as `size` says. -/
def Represents (heap : Heap Addr) (list : UserList Addr) (records : List UserServerData) : Prop :=
  list.size.toInt = records.length ∧ ∃ nodes, Chain heap list.head nodes ∧
    nodes.map Prod.snd = records

/-- A cell that can be reached from the list. -/
def Reachable (heap : Heap Addr) (list : UserList Addr) (a : Addr) : Prop :=
  ∃ before, Segment heap list.head before (some a)

/-! ## Loops -/

section Loops

variable {heap : Heap Addr} {list : UserList Addr} {p q : Option Addr} {a : Addr}
  {nodes : List (Addr × UserServerData)} {rounds : Nat} {name : Bytes}

theorem deref_eq {node : Node Addr} (h : heap a = some node) : deref heap a = .ok node := by
  unfold deref
  rw [h]

/-- The loop of `add_element` ends at the last node. -/
theorem lastNode_eq {c : Addr} {x : UserServerData}
    (h : Chain heap (some a) (nodes ++ [(c, x)])) (hrounds : nodes.length < rounds) :
    lastNode rounds a heap = .ok c := by
  induction nodes generalizing a rounds with
  | nil =>
    obtain ⟨rounds, rfl⟩ := Nat.exists_eq_succ_of_ne_zero (Nat.ne_of_gt hrounds)
    obtain ⟨hp, r, ha, hr⟩ := Segment.cons_iff.1 h
    obtain rfl := Option.some.inj hp
    obtain rfl := Segment.nil_iff.1 hr
    unfold lastNode
    rw [deref_eq ha]
    rfl
  | cons node nodes ih =>
    obtain ⟨b, y⟩ := node
    rw [List.length_cons] at hrounds
    obtain ⟨rounds, rfl⟩ := Nat.exists_eq_succ_of_ne_zero (Nat.ne_of_gt (by omega : 0 < rounds))
    obtain ⟨hp, r, ha, hr⟩ := Segment.cons_iff.1 h
    obtain rfl := Option.some.inj hp
    unfold lastNode
    rw [deref_eq ha]
    cases r with
    | none => exact absurd (Chain.eq_nil_of_none hr) (List.append_ne_nil_of_right_ne_nil _ nofun)
    | some next => exact ih hr (by omega)

/-- The loop of `get_elements` writes one element after the other. -/
theorem copyLoop_eq (h : Chain heap p nodes) (hrounds : nodes.length ≤ rounds)
    (written : List UserServerData) :
    copyLoop rounds p heap written.length
        (written.map some ++ List.replicate nodes.length none) =
      .ok ((written ++ nodes.map Prod.snd).map some) := by
  induction nodes generalizing p rounds written with
  | nil =>
    obtain rfl := Segment.nil_iff.1 h
    unfold copyLoop
    simp
  | cons node nodes ih =>
    obtain ⟨a, x⟩ := node
    rw [List.length_cons] at hrounds
    obtain ⟨rounds, rfl⟩ := Nat.exists_eq_succ_of_ne_zero (Nat.ne_of_gt (by omega : 0 < rounds))
    obtain ⟨rfl, r, ha, hr⟩ := Segment.cons_iff.1 h
    have hset : (written.map some ++ List.replicate (nodes.length + 1) none).set written.length
        (some x) = (written ++ [x]).map some ++ List.replicate nodes.length none := by
      rw [List.set_append_right _ _ (by simp), List.replicate_succ]
      simp
    have hih := ih hr (show nodes.length ≤ rounds by omega) (written ++ [x])
    rw [List.length_append, List.length_singleton] at hih
    unfold copyLoop
    rw [deref_eq ha]
    dsimp only [bind, Except.bind]
    rw [if_pos (by simp), List.length_cons, hset, hih]
    simp

/-- The loop of a search ends at the first node of the name. -/
theorem findNode_eq (h : Chain heap p nodes) (hrounds : nodes.length ≤ rounds) :
    findNode name rounds p heap =
      .ok ((nodes.find? fun node => node.2.name = name).map Prod.fst) := by
  induction nodes generalizing p rounds with
  | nil =>
    obtain rfl := Segment.nil_iff.1 h
    unfold findNode
    rfl
  | cons node nodes ih =>
    obtain ⟨a, x⟩ := node
    rw [List.length_cons] at hrounds
    obtain ⟨rounds, rfl⟩ := Nat.exists_eq_succ_of_ne_zero (Nat.ne_of_gt (by omega : 0 < rounds))
    obtain ⟨rfl, r, ha, hr⟩ := Segment.cons_iff.1 h
    unfold findNode
    rw [deref_eq ha, List.find?_cons]
    dsimp only [bind, Except.bind]
    by_cases hname : x.name = name
    · rw [if_pos hname, decide_eq_true hname]
      rfl
    · rw [if_neg hname, decide_eq_false hname]
      exact ih hr (by omega)

variable [DecidableEq Addr]

/-- The loop of `delete_element` goes on to the first node of the name. The previous node is then
the last that it has passed. -/
theorem deleteLoop_skip {previous : Option Addr} (h : Segment heap p nodes q)
    (hnames : ∀ node ∈ nodes, node.2.name ≠ name) :
    deleteLoop name (nodes.length + rounds) previous p list heap =
      deleteLoop name rounds (nodes.foldl (fun _ node => some node.1) previous) q list heap := by
  induction h generalizing previous with
  | nil p => rw [List.length_nil, Nat.zero_add, List.foldl_nil]
  | @cons a x p q l ha hl ih =>
    obtain ⟨hname, hnames⟩ := List.forall_mem_cons.1 hnames
    rw [List.length_cons, List.foldl_cons, ← ih hnames, Nat.add_right_comm]
    rw [deleteLoop, deref_eq ha]
    dsimp only [bind, Except.bind]
    rw [if_neg hname]

/-- A node of the name that is the head. -/
theorem deleteLoop_head {x : UserServerData} (ha : heap a = some ⟨x, p⟩) (hx : x.name = name)
    (hhead : list.head = some a) :
    deleteLoop name (rounds + 1) (some a) (some a) list heap =
      .ok (⟨p, list.size - 1⟩, Function.update heap a none) := by
  have hset : Function.update heap a (some ⟨x, p⟩) = heap := by
    rw [← ha]
    exact Function.update_eq_self a heap
  rw [deleteLoop, deref_eq ha]
  dsimp only [bind, Except.bind]
  rw [if_pos hx]
  unfold setNext free
  rw [deref_eq ha]
  dsimp only [bind, Except.bind, pure, Except.pure]
  rw [hset, deref_eq ha]
  dsimp only
  rw [if_pos hhead.symm]

/-- A node of the name behind another one. -/
theorem deleteLoop_next {b : Addr} {x y : UserServerData} (hb : heap b = some ⟨y, some a⟩)
    (ha : heap a = some ⟨x, p⟩) (hne : b ≠ a) (hx : x.name = name)
    (hhead : list.head ≠ some a) :
    deleteLoop name (rounds + 1) (some b) (some a) list heap =
      .ok (⟨list.head, list.size - 1⟩,
        Function.update (Function.update heap b (some ⟨y, p⟩)) a none) := by
  have ha' : Function.update heap b (some ⟨y, p⟩) a = some ⟨x, p⟩ := by
    rw [Function.update_of_ne hne.symm]
    exact ha
  rw [deleteLoop, deref_eq ha]
  dsimp only [bind, Except.bind]
  rw [if_pos hx]
  unfold setNext free
  rw [deref_eq hb]
  dsimp only [bind, Except.bind, pure, Except.pure]
  rw [deref_eq ha']
  dsimp only
  rw [if_neg hhead.symm]

end Loops

/-! ## Operations -/

section Chains

variable [DecidableEq Addr] {heap : Heap Addr} {list : UserList Addr} {a : Addr}
  {nodes before after : List (Addr × UserServerData)} {x data : UserServerData} {name : Bytes}

/-- An element that is added is the last of the chain. -/
theorem addElement_chain (h : Chain heap list.head nodes) (hfresh : heap a = none)
    (data : UserServerData) :
    ∃ list' heap', (∀ rounds, nodes.length ≤ rounds →
        addElement rounds (some a) data list heap = .ok (list', heap')) ∧
      list'.size = list.size + 1 ∧ Chain heap' list'.head (nodes ++ [(a, data)]) := by
  obtain ⟨head, size⟩ := list
  rcases List.eq_nil_or_concat' nodes with rfl | ⟨init, ⟨c, y⟩, rfl⟩
  · obtain rfl := Segment.nil_iff.1 h
    refine ⟨⟨some a, size + 1⟩, Function.update heap a (some ⟨data, none⟩), fun _ _ => rfl, rfl, ?_⟩
    exact .cons (Function.update_self _ _ _) (.nil none)
  · obtain ⟨r, hinit, hlast⟩ := Segment.append_iff.1 h
    obtain ⟨rfl, q, hc, hq⟩ := Segment.cons_iff.1 hlast
    obtain rfl := Segment.nil_iff.1 hq
    have hne : c ≠ a := by
      rintro rfl
      rw [hfresh] at hc
      cases hc
    have hhead : ∃ b, head = some b := by
      cases head with
      | none => exact absurd (Chain.eq_nil_of_none h) (List.append_ne_nil_of_right_ne_nil _ nofun)
      | some b => exact ⟨b, rfl⟩
    obtain ⟨b, rfl⟩ := hhead
    have hc' : Function.update heap a (some ⟨data, none⟩) c = some ⟨y, none⟩ := by
      rw [Function.update_of_ne hne]
      exact hc
    refine ⟨⟨some b, size + 1⟩, Function.update (Function.update heap a (some ⟨data, none⟩)) c
      (some ⟨y, some a⟩), ?_, rfl, h.extend hfresh data⟩
    intro rounds hrounds
    rw [List.length_append, List.length_singleton] at hrounds
    unfold addElement
    dsimp only
    rw [lastNode_eq h (by omega)]
    dsimp only [bind, Except.bind, createNode, setNext]
    rw [deref_eq hc']
    rfl

/-- `delete_element` comes to the first node of the name with rounds left. -/
theorem deleteElement_eq_loop {q : Option Addr} (h : Segment heap list.head before q)
    (hbefore : ∀ node ∈ before, node.2.name ≠ name) {rounds : Nat}
    (hrounds : before.length < rounds) :
    ∃ k, deleteElement rounds name list heap =
      deleteLoop name (k + 1) (before.foldl (fun _ node => some node.1) list.head) q list heap := by
  obtain ⟨k, rfl⟩ := Nat.exists_eq_add_of_le (by omega : before.length + 1 ≤ rounds)
  refine ⟨k, ?_⟩
  unfold deleteElement
  rw [Nat.add_assoc, Nat.add_comm 1 k]
  exact deleteLoop_skip h hbefore

/-- The first node of the name is taken out of the chain and freed. -/
theorem deleteElement_chain (h : Chain heap list.head (before ++ (a, x) :: after))
    (hbefore : ∀ node ∈ before, node.2.name ≠ name) (hx : x.name = name) :
    ∃ list' heap', (∀ rounds, (before ++ (a, x) :: after).length ≤ rounds →
        deleteElement rounds name list heap = .ok (list', heap')) ∧
      list'.size = list.size - 1 ∧ Chain heap' list'.head (before ++ after) ∧ heap' a = none := by
  have hdistinct := Chain.nodup h
  rw [List.map_append, List.map_cons, List.nodup_append, List.nodup_cons] at hdistinct
  obtain ⟨-, ⟨hafter, -⟩, hdisjoint⟩ := hdistinct
  obtain ⟨r, hpassed, hrest⟩ := Segment.append_iff.1 h
  obtain ⟨rfl, p, ha, htail⟩ := Segment.cons_iff.1 hrest
  have hrun : ∀ rounds, (before ++ (a, x) :: after).length ≤ rounds →
      ∃ k, deleteElement rounds name list heap =
        deleteLoop name (k + 1) (before.foldl (fun _ node => some node.1) list.head) (some a) list
          heap := by
    intro rounds hrounds
    rw [List.length_append, List.length_cons] at hrounds
    exact deleteElement_eq_loop hpassed hbefore (by omega)
  rcases List.eq_nil_or_concat' before with rfl | ⟨init, ⟨b, y⟩, rfl⟩
  · have hhead := Segment.nil_iff.1 hpassed
    refine ⟨⟨p, list.size - 1⟩, Function.update heap a none, ?_, rfl,
      htail.update_of_notMem hafter none, Function.update_self _ _ _⟩
    intro rounds hrounds
    obtain ⟨k, hk⟩ := hrun rounds hrounds
    rw [hk, List.foldl_nil, hhead]
    exact deleteLoop_head ha hx hhead
  · obtain ⟨r, -, hlast⟩ := Segment.append_iff.1 hpassed
    obtain ⟨rfl, q, hb, hq⟩ := Segment.cons_iff.1 hlast
    obtain rfl := Segment.nil_iff.1 hq
    have hbefore' : a ∉ (init ++ [(b, y)]).map Prod.fst := fun hmem =>
      hdisjoint a hmem a List.mem_cons_self rfl
    have hne : b ≠ a := by
      rintro rfl
      exact hbefore' (by simp)
    have hhead : list.head ≠ some a := by
      intro hhead
      rw [hhead] at hpassed
      exact hbefore' (hpassed.head_mem (List.append_ne_nil_of_right_ne_nil _ nofun))
    refine ⟨⟨list.head, list.size - 1⟩,
      Function.update (Function.update heap b (some ⟨y, p⟩)) a none, ?_, rfl, Chain.skip h ha,
      Function.update_self _ _ _⟩
    intro rounds hrounds
    obtain ⟨k, hk⟩ := hrun rounds hrounds
    rw [hk, List.foldl_append, List.foldl_cons, List.foldl_nil]
    exact deleteLoop_next hb ha hne hx hhead

/-- Without a node of the name nothing happens. -/
theorem deleteElement_missing (h : Chain heap list.head nodes)
    (hnames : ∀ node ∈ nodes, node.2.name ≠ name) {rounds : Nat} (hrounds : nodes.length ≤ rounds) :
    deleteElement rounds name list heap = .ok (list, heap) := by
  obtain ⟨k, rfl⟩ := Nat.exists_eq_add_of_le hrounds
  unfold deleteElement
  rw [deleteLoop_skip h hnames]
  cases k <;> rfl

omit [DecidableEq Addr] in
/-- A cell that is not allocated cannot be reached. -/
theorem not_reachable (h : Chain heap list.head nodes) (ha : heap a = none) :
    ¬ Reachable heap list a := by
  rintro ⟨before, hbefore⟩
  obtain ⟨rest, -, hrest⟩ := Chain.of_segment h hbefore
  cases hrest with
  | cons hcell =>
    rw [ha] at hcell
    cases hcell

end Chains

/-! ## The sequence -/

theorem deleteElement_append {before after : List UserServerData} {x : UserServerData}
    {name : Bytes} (hbefore : ∀ d ∈ before, d.name ≠ name) (hx : x.name = name) :
    Lab.deleteElement name (before ++ x :: after) = before ++ after := by
  induction before with
  | nil => exact if_pos hx
  | cons d before ih =>
    obtain ⟨hd, hbefore⟩ := List.forall_mem_cons.1 hbefore
    rw [List.cons_append, Lab.deleteElement, if_neg hd, ih hbefore, List.cons_append]

theorem mem_userNames_nodes {nodes : List (Addr × UserServerData)} {name : Bytes} :
    name ∈ userNames (nodes.map Prod.snd) ↔ ∃ node ∈ nodes, node.2.name = name := by
  unfold userNames
  rw [List.map_map, List.mem_map]
  rfl

theorem toInt_succ {size : Int32} {n : Nat} (h : size.toInt = n) (hn : n + 1 < 2 ^ 31) :
    (size + 1).toInt = (n + 1 : Nat) := by
  rw [Int32.toInt_add, h, Int32.toInt_one, Int.bmod_def]
  split <;> omega

theorem toInt_pred {size : Int32} {n : Nat} (h : size.toInt = (n + 1 : Nat)) :
    (size - 1).toInt = n := by
  have hlt := size.toInt_lt
  rw [Int32.toInt_sub, h, Int32.toInt_one, Int.bmod_def]
  split <;> omega

variable [DecidableEq Addr]

/-- The operations on a heap list do what they are to do to its sequence. The loops end, in no more
rounds than there are nodes. -/
structure Refines (heap : Heap Addr) (list : UserList Addr) (records : List UserServerData)
    (newNode : Addr) (data : UserServerData) (name : Bytes) : Prop where
  add : ∃ list' heap', (∀ rounds, records.length ≤ rounds →
      addElement rounds (some newNode) data list heap = .ok (list', heap')) ∧
    Represents heap' list' (Lab.addElement data records)
  /-- The node that goes is the first one of the name. -/
  delete : ∃ list' heap', (∀ rounds, records.length ≤ rounds →
      deleteElement rounds name list heap = .ok (list', heap')) ∧
    Represents heap' list' (Lab.deleteElement name records) ∧
    (name ∉ userNames records → list' = list ∧ heap' = heap) ∧
    ∀ nodes, Chain heap list.head nodes →
      ∀ a x, nodes.find? (fun node => node.2.name = name) = some (a, x) →
        heap' a = none ∧ ¬ Reachable heap' list' a
  elements : ∀ rounds, records.length ≤ rounds →
    getElements rounds list heap = .ok ((Lab.getElements records).map some)
  find : ∀ rounds, records.length ≤ rounds →
    findElementByname rounds list name heap = .ok (Lab.findElementByname records name)
  /-- The pointer is that to the first node of the name. -/
  get : ∀ nodes, Chain heap list.head nodes → ∀ rounds, records.length ≤ rounds →
    getElementByname rounds list name heap =
      .ok ((nodes.find? fun node => node.2.name = name).map Prod.fst)

section Refinement

variable {heap : Heap Addr} {list : UserList Addr} {records : List UserServerData} {newNode : Addr}
  {data : UserServerData} {name : Bytes}

namespace Represents

omit [DecidableEq Addr] in
theorem length_lt (h : Represents heap list records) : records.length < 2 ^ 31 := by
  have hlt := list.size.toInt_lt
  rw [h.1] at hlt
  omega

theorem add (h : Represents heap list records) (hfresh : heap newNode = none)
    (hlen : records.length + 1 < 2 ^ 31) :
    ∃ list' heap', (∀ rounds, records.length ≤ rounds →
        addElement rounds (some newNode) data list heap = .ok (list', heap')) ∧
      Represents heap' list' (Lab.addElement data records) := by
  obtain ⟨hsize, nodes, hnodes, rfl⟩ := h
  rw [List.length_map] at hsize hlen
  obtain ⟨list', heap', hadd, hsize', hchain⟩ := addElement_chain hnodes hfresh data
  refine ⟨list', heap', ?_, ?_, _, hchain, ?_⟩
  · rw [List.length_map]
    exact hadd
  · rw [hsize', toInt_succ hsize hlen]
    simp [Lab.addElement]
  · simp [Lab.addElement]

theorem delete (h : Represents heap list records) :
    ∃ list' heap', (∀ rounds, records.length ≤ rounds →
        deleteElement rounds name list heap = .ok (list', heap')) ∧
      Represents heap' list' (Lab.deleteElement name records) ∧
      (name ∉ userNames records → list' = list ∧ heap' = heap) ∧
      ∀ nodes, Chain heap list.head nodes →
        ∀ a x, nodes.find? (fun node => node.2.name = name) = some (a, x) →
          heap' a = none ∧ ¬ Reachable heap' list' a := by
  have hrepresents := h
  obtain ⟨hsize, nodes, hnodes, rfl⟩ := h
  rw [List.length_map] at hsize ⊢
  cases hfind : nodes.find? fun node => node.2.name = name with
  | none =>
    have hnames : ∀ node ∈ nodes, node.2.name ≠ name := by
      intro node hnode
      simpa using List.find?_eq_none.1 hfind node hnode
    have hmissing : name ∉ userNames (nodes.map Prod.snd) := by
      intro hmem
      obtain ⟨node, hnode, hname⟩ := mem_userNames_nodes.1 hmem
      exact hnames node hnode hname
    refine ⟨list, heap, fun rounds hrounds => deleteElement_missing hnodes hnames hrounds, ?_,
      fun _ => ⟨rfl, rfl⟩, ?_⟩
    · rw [deleteElement_of_notMem hmissing]
      exact hrepresents
    · intro nodes' hnodes' a x hfind'
      rw [Chain.unique hnodes' hnodes, hfind] at hfind'
      cases hfind'
  | some node =>
    obtain ⟨a, x⟩ := node
    obtain ⟨hx, before, after, rfl, hbefore⟩ := List.find?_eq_some_iff_append.1 hfind
    have hx : x.name = name := of_decide_eq_true hx
    have hbefore : ∀ node ∈ before, node.2.name ≠ name := by
      intro node hnode
      simpa using hbefore node hnode
    have hrecords : ∀ d ∈ before.map Prod.snd, d.name ≠ name := by
      intro d hd
      obtain ⟨node, hnode, rfl⟩ := List.mem_map.1 hd
      exact hbefore node hnode
    obtain ⟨list', heap', hdelete, hsize', hchain, hfree⟩ := deleteElement_chain hnodes hbefore hx
    refine ⟨list', heap', hdelete, ⟨?_, _, hchain, ?_⟩, ?_, ?_⟩
    · have hlen : (before ++ (a, x) :: after).length = (before ++ after).length + 1 := by
        simp only [List.length_append, List.length_cons]
        omega
      rw [hlen] at hsize
      rw [hsize', toInt_pred hsize, List.map_append, List.map_cons,
        deleteElement_append hrecords hx]
      simp
    · rw [List.map_append, List.map_append, List.map_cons, deleteElement_append hrecords hx]
    · intro hmissing
      exact absurd (mem_userNames_nodes.2 ⟨(a, x), by simp, hx⟩) hmissing
    · intro nodes' hnodes' a' x' hfind'
      rw [Chain.unique hnodes' hnodes, hfind] at hfind'
      obtain ⟨rfl, rfl⟩ := Prod.mk.inj (Option.some.inj hfind')
      exact ⟨hfree, not_reachable hchain hfree⟩

omit [DecidableEq Addr] in
theorem elements (h : Represents heap list records) {rounds : Nat}
    (hrounds : records.length ≤ rounds) :
    getElements rounds list heap = .ok ((Lab.getElements records).map some) := by
  obtain ⟨hsize, nodes, hnodes, rfl⟩ := h
  rw [List.length_map] at hsize hrounds
  have hcopy := copyLoop_eq hnodes hrounds []
  unfold getElements
  rw [hsize, Int.toNat_natCast]
  exact hcopy

omit [DecidableEq Addr] in
theorem get (h : Represents heap list records) {nodes : List (Addr × UserServerData)}
    (hnodes : Chain heap list.head nodes) {rounds : Nat} (hrounds : records.length ≤ rounds) :
    getElementByname rounds list name heap =
      .ok ((nodes.find? fun node => node.2.name = name).map Prod.fst) := by
  obtain ⟨-, nodes', hnodes', rfl⟩ := h
  rw [List.length_map] at hrounds
  rw [Chain.unique hnodes hnodes']
  exact findNode_eq hnodes' hrounds

omit [DecidableEq Addr] in
theorem find (h : Represents heap list records) {rounds : Nat}
    (hrounds : records.length ≤ rounds) :
    findElementByname rounds list name heap = .ok (Lab.findElementByname records name) := by
  obtain ⟨-, nodes, hnodes, rfl⟩ := h
  rw [List.length_map] at hrounds
  unfold findElementByname
  rw [findNode_eq hnodes hrounds, findElementByname_eq]
  dsimp only [bind, Except.bind, pure, Except.pure]
  congr 1
  cases hfind : nodes.find? fun node => node.2.name = name with
  | none =>
    have hmissing : name ∉ userNames (nodes.map Prod.snd) := by
      intro hmem
      obtain ⟨node, hnode, hname⟩ := mem_userNames_nodes.1 hmem
      exact absurd (decide_eq_true hname) (List.find?_eq_none.1 hfind node hnode)
    rw [if_neg hmissing]
    rfl
  | some node =>
    have hname : node.2.name = name := by simpa using List.find?_some hfind
    have hmem : name ∈ userNames (nodes.map Prod.snd) :=
      mem_userNames_nodes.2 ⟨node, List.mem_of_find?_eq_some hfind, hname⟩
    rw [if_pos hmem]
    rfl

end Represents

/-- **The list refines the sequence of its records** exactly when `size` can count one node more. -/
theorem refines_iff (h : Represents heap list records) (hfresh : heap newNode = none)
    (data : UserServerData) (name : Bytes) :
    Refines heap list records newNode data name ↔ records.length + 1 < 2 ^ 31 := by
  constructor
  · intro hrefines
    obtain ⟨list', heap', -, hadd⟩ := hrefines.add
    have hlen := hadd.length_lt
    rw [Lab.addElement, List.length_append, List.length_singleton] at hlen
    exact hlen
  · intro hlen
    exact ⟨h.add hfresh hlen, h.delete, fun _ hrounds => h.elements hrounds,
      fun _ hrounds => h.find hrounds, fun _ hnodes _ hrounds => h.get hnodes hrounds⟩

end Refinement

/-! ## Two lists -/

/-- As many nodes with this record as `size` says, one after the other. -/
def nodesOf (data : UserServerData) (size : Nat) : Heap Nat := fun a =>
  if a < size then some ⟨data, if a + 1 < size then some (a + 1) else none⟩ else none

theorem chain_nodesOf (data : UserServerData) (size k : Nat) :
    k ≤ size → Chain (nodesOf data size) (if size - k < size then some (size - k) else none)
      ((List.range' (size - k) k).map (·, data)) := by
  induction k with
  | zero =>
    intro _
    rw [if_neg (by omega)]
    exact .nil none
  | succ k ih =>
    intro hk
    have hnext : size - (k + 1) + 1 = size - k := by omega
    have htail := ih (by omega)
    rw [List.range'_succ, List.map_cons, hnext, if_pos (by omega)]
    refine .cons ?_ htail
    unfold nodesOf
    rw [if_pos (by omega), hnext]

theorem represents_nodesOf (data : UserServerData) {size : Int32} {n : Nat} (hn : 0 < n)
    (hsize : size.toInt = n) :
    Represents (nodesOf data n) ⟨some 0, size⟩
      (((List.range' 0 n).map (·, data)).map Prod.snd) := by
  have hchain := chain_nodesOf data n n (Nat.le_refl n)
  rw [Nat.sub_self, if_pos hn] at hchain
  refine ⟨?_, _, hchain, rfl⟩
  rw [List.length_map, List.length_map, List.length_range']
  exact hsize

theorem nodesOf_fresh (data : UserServerData) (size : Nat) : nodesOf data size size = none :=
  if_neg (Nat.lt_irrefl size)

def alice : UserServerData := ⟨[97], [49], [49]⟩

def bob : UserServerData := ⟨[98], [50], [50]⟩

/-- The nodes of a list of two. -/
def aliceBob : Heap Nat
  | 0 => some ⟨alice, some 1⟩
  | 1 => some ⟨bob, none⟩
  | _ => none

theorem represents_aliceBob : Represents aliceBob ⟨some 0, 2⟩ [alice, bob] := by
  have hchain : Chain aliceBob (some 0) [(0, alice), (1, bob)] := .cons rfl (.cons rfl (.nil none))
  exact ⟨by decide, _, hchain, rfl⟩

/-- Carol's node is added to the list, and the last node is deleted from it. -/
theorem aliceBob_refines :
    Refines aliceBob ⟨some 0, 2⟩ [alice, bob] 2 ⟨[99], [51], [51]⟩ bob.name :=
  (refines_iff represents_aliceBob rfl ⟨[99], [51], [51]⟩ bob.name).2 (by decide)

/-- `size` is at its greatest value. -/
theorem full_not_refines :
    ¬ ∀ (heap : Heap Nat) (list : UserList Nat) (records : List UserServerData) (newNode : Nat)
      (data : UserServerData) (name : Bytes),
      Represents heap list records → heap newNode = none →
        Refines heap list records newNode data name := by
  intro h
  have hrepresents := represents_nodesOf alice (show 0 < 2 ^ 31 - 1 by decide)
    (show Int32.maxValue.toInt = (2 ^ 31 - 1 : Nat) by decide)
  obtain ⟨list', heap', -, hadd⟩ :=
    (h _ _ _ _ alice alice.name hrepresents (nodesOf_fresh alice _)).add
  have hlen := hadd.length_lt
  rw [Lab.addElement, List.length_append, List.length_map, List.length_map, List.length_range',
    List.length_singleton] at hlen
  omega

end DistributedSystems.Lab.HeapList
