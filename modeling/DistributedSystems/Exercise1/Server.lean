import DistributedSystems.Support.Slots
import DistributedSystems.Support.Threads
import Mathlib.Algebra.Group.Nat.Defs

/-!
# The vector server (`Exercise1/server.c`)

The server keeps named integer vectors in one growing array. `functionSelector` is the program of a
thread for one request: each `find_vector`, each section under `mutex_memory` and each read of the
storage is one call. An access that leaves the storage or a vector, an overflow of the capacity and
a section whose mutex is never released again end the thread with a `Fault`; the mutex then stays
locked where the thread held it. A request is answered by a `Response`, whose data only `get` sets.
-/

namespace DistributedSystems.Exercise1

open Support

abbrev Bytes := List UInt8

/-- A request, without the queue its answer goes to. Names are the characters before the NUL. -/
structure Request where
  operation : Int
  name : Bytes
  arg1 : Int
  arg2 : Int
deriving DecidableEq, Repr

structure Response where
  output : Int
  data : Option Int
deriving DecidableEq, Repr

/-- What `calloc` allocates for `size` elements. -/
abbrev Block (size : Int) : Type := { elements : List Int // size = elements.length }

structure Vector where
  name : Bytes
  size : Int
  elements : List Int
  size_eq : size = elements.length
deriving DecidableEq

/-- `vectors` are the slots that are allocated. -/
structure Storage where
  capacity : Nat
  size : Nat
  vectors : Slots Vector
deriving DecidableEq

/-- What the threads share: the storage, and whether `mutex_memory` is held. -/
structure Memory where
  storage : Storage
  locked : Bool
deriving DecidableEq

inductive Fault
  /-- An access outside the stored vectors, or outside the elements of a vector. It may find a slot
  that is no longer in use, or memory of something else; what the thread does then is not
  followed. -/
  | outside
  /-- The doubled capacity is no `int`. -/
  | overflow
  /-- The mutex is never released. -/
  | blocked
deriving DecidableEq, Repr

/-- Which allocations succeed. -/
structure Allocator where
  calloc : Bool
  realloc : Bool
deriving DecidableEq, Repr

/-- Every allocation succeeds. -/
def allocating : Allocator := ⟨true, true⟩

abbrev vectorInitialCapacity : Nat := 2

/-- The storage that `main` sets up. -/
def initialMemory : Memory where
  storage := ⟨vectorInitialCapacity, 0, List.replicate vectorInitialCapacity none⟩
  locked := false

/-! ## Calls -/

inductive Action
  | findVector (name : Bytes)
  /-- Read `storage.vectors[result].size`. -/
  | sizeAt (result : Nat)
  | calloc (size : Int)
  /-- The section of `init`. -/
  | append (vector : Vector)
  /-- The section of `set`. -/
  | store (result : Nat) (i value : Int)
  /-- Read `storage.vectors[result].elements[i]`. -/
  | load (result : Nat) (i : Int)
  /-- The section of `destroy`. -/
  | remove (result : Nat)
deriving DecidableEq

abbrev Action.Result : Action → Type
  | .findVector _ => Option Nat
  | .sizeAt _ => Int
  | .calloc size => Option (Block size)
  | .append _ => Bool
  | .store _ _ _ => Unit
  | .load _ _ => Int
  | .remove _ => Unit

abbrev Action.Answer (a : Action) : Type := Except Fault a.Result

namespace Storage

variable (s : Storage)

/-- The index of the vector, if there is one. -/
def findVector (name : Bytes) : Except Fault (Option Nat) :=
  match s.vectors.search (fun vector => vector.name = name) s.size 0 with
  | none => .error .outside
  | some result => .ok result

/-- One of the stored vectors. -/
def vectorAt (result : Nat) : Except Fault Vector :=
  if result < s.size then
    match s.vectors.read result with
    | none => .error .outside
    | some vector => .ok vector
  else .error .outside

/-- `storage.vectors[storage.size] = vector`, and one more is stored. -/
def push (vector : Vector) : Except Fault Storage :=
  match s.vectors.store s.size vector with
  | none => .error .outside
  | some vectors => .ok { s with size := s.size + 1, vectors := vectors }

end Storage

/-- The element at an index. -/
def Vector.elementAt (v : Vector) (i : Int) : Except Fault Int :=
  if 0 ≤ i then
    match v.elements[i.toNat]? with
    | none => .error .outside
    | some x => .ok x
  else .error .outside

/-- The vector with another element at an index. -/
def Vector.setElement (v : Vector) (i value : Int) : Vector where
  name := v.name
  size := v.size
  elements := v.elements.set i.toNat value
  size_eq := by rw [List.length_set]; exact v.size_eq

/-- A section under the mutex. It releases the mutex unless it ends with a fault, after which the
thread is not followed any further, or with a result for which `keeps` holds. -/
def Memory.underMutex {α : Type} (m : Memory) (body : Storage → Except Fault (α × Storage))
    (keeps : α → Bool) : Except Fault α × Memory :=
  if m.locked then (.error .blocked, m)
  else
    match body m.storage with
    | .error fault => (.error fault, { m with locked := true })
    | .ok (a, s) => (.ok a, ⟨s, keeps a⟩)

/-- Double the capacity when the array is full, and append. The result says whether there was memory
for it. -/
def Storage.append (realloc : Bool) (vector : Vector) (s : Storage) :
    Except Fault (Bool × Storage) :=
  if s.capacity ≤ s.size then
    let capacity := s.capacity * 2
    if 2 ^ 31 ≤ capacity then .error .overflow
    else if realloc then do
      let grown := s.vectors ++ List.replicate (capacity - s.vectors.length) none
      let s' ← Storage.push { s with capacity := capacity, vectors := grown } vector
      return (true, s')
    else .ok (false, { s with capacity := capacity })
  else do
    let s' ← s.push vector
    return (true, s')

def Storage.store (result : Nat) (i value : Int) (s : Storage) : Except Fault (Unit × Storage) := do
  let vector ← s.vectorAt result
  let _ ← vector.elementAt i
  match s.vectors.store result (vector.setElement i value) with
  | none => .error .outside
  | some vectors => .ok ((), { s with vectors := vectors })

def Storage.remove (result : Nat) (s : Storage) : Except Fault (Unit × Storage) := do
  let _ ← s.vectorAt result
  match s.vectors.closeGap (s.size - 1 - result) result with
  | none => .error .outside
  | some vectors => .ok ((), { s with size := s.size - 1, vectors := vectors })

/-- Memory for a number of elements. -/
def callocBlock (allocated : Bool) (size : Int) : Option (Block size) :=
  if h : allocated ∧ 0 ≤ size then
    some ⟨List.replicate size.toNat 0, by rw [List.length_replicate, Int.toNat_of_nonneg h.2]⟩
  else none

/-- One call, at once. A failed `realloc` returns without releasing the mutex. -/
def perform (allocator : Allocator) : (a : Action) → Memory → a.Answer × Memory
  | .findVector name, m => (m.storage.findVector name, m)
  | .sizeAt result, m => ((m.storage.vectorAt result).map Vector.size, m)
  | .calloc size, m => (.ok (callocBlock allocator.calloc size), m)
  | .append vector, m => m.underMutex (Storage.append allocator.realloc vector) (! ·)
  | .store result i value, m => m.underMutex (Storage.store result i value) fun _ => false
  | .load result i, m => (m.storage.vectorAt result >>= (·.elementAt i), m)
  | .remove result, m => m.underMutex (Storage.remove result) fun _ => false

/-! ## Operations -/

abbrev Selector := Program Action.Answer (Except Fault Response)

/-- The thread returns `output` and has no data. -/
def answer (output : Int) : Selector := .done (.ok ⟨output, none⟩)

/-- Make a call, and go on with its result unless it is a fault. -/
def ask (a : Action) (next : a.Result → Selector) : Selector :=
  .call a fun
    | .error fault => .done (.error fault)
    | .ok result => next result

namespace Request

variable (req : Request)

def initAppended (appended : Bool) : Selector := if appended then answer 1 else answer (-1)

def initAllocated : Option (Block req.arg1) → Selector
  | none => answer (-1)
  | some block => ask (.append ⟨req.name, req.arg1, block.1, block.2⟩) initAppended

def initSized (size : Int) : Selector := if size = req.arg1 then answer 0 else answer (-1)

def initFound : Option Nat → Selector
  | none => ask (.calloc req.arg1) req.initAllocated
  | some result => ask (.sizeAt result) req.initSized

/-- `init(name,N)`. -/
def init : Selector := ask (.findVector req.name) req.initFound

def setSized (result : Nat) (size : Int) : Selector :=
  if size - 1 < req.arg1 then answer (-1)
  else ask (.store result req.arg1 req.arg2) fun _ => answer 0

def setFound : Option Nat → Selector
  | none => answer (-1)
  | some result => ask (.sizeAt result) (req.setSized result)

/-- `set(name,index,value)`. -/
def set : Selector := ask (.findVector req.name) req.setFound

def getSized (result : Nat) (size : Int) : Selector :=
  if size - 1 < req.arg1 then answer (-1)
  else ask (.load result req.arg1) fun data => .done (.ok ⟨result, some data⟩)

def getFound : Option Nat → Selector
  | none => answer (-1)
  | some result => ask (.sizeAt result) (req.getSized result)

/-- `get(name,index)`. -/
def get : Selector := ask (.findVector req.name) req.getFound

def destroyFound : Option Nat → Selector
  | none => answer (-1)
  | some result => ask (.remove result) fun _ => answer 1

/-- `destroy(name)`. -/
def destroy : Selector := ask (.findVector req.name) destroyFound

end Request

def functionSelector (req : Request) : Selector :=
  if req.operation = 0 then req.init
  else if req.operation = 1 then req.set
  else if req.operation = 2 then req.get
  else if req.operation = 3 then req.destroy
  else answer (-1)

section Selected

variable {req : Request}

theorem functionSelector_init (h : req.operation = 0) : functionSelector req = req.init := by
  unfold functionSelector
  rw [if_pos h]

theorem functionSelector_set (h : req.operation = 1) : functionSelector req = req.set := by
  unfold functionSelector
  rw [if_neg (by omega), if_pos h]

theorem functionSelector_get (h : req.operation = 2) : functionSelector req = req.get := by
  unfold functionSelector
  rw [if_neg (by omega), if_neg (by omega), if_pos h]

theorem functionSelector_destroy (h : req.operation = 3) : functionSelector req = req.destroy := by
  unfold functionSelector
  rw [if_neg (by omega), if_neg (by omega), if_neg (by omega), if_pos h]

end Selected

/-- A request with no other thread at work. -/
def serve (allocator : Allocator) (req : Request) (m : Memory) : Except Fault Response × Memory :=
  (functionSelector req).run (perform allocator) m

end DistributedSystems.Exercise1
