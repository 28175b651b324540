import DistributedSystems.Exercise1.GetCodes
import DistributedSystems.Support.Traces
import Mathlib.Algebra.Group.Int.Defs

/-!
# Any message

`array.c` refuses negative indexes and sizes before it sends anything, and the server compares an
index with the size of its vector only. Whatever else is sent to the server, all sizes stay what an
`int` can be (`Bounded`). But a `get` or a `set` with a negative index goes to an element in front
of the vector, and a storage of `2^30` vectors cannot grow. Messages are executed safely exactly
when these do not come (`safelyExecuted_iff`).
-/

namespace DistributedSystems.Exercise1

open Support

/-- A value of the type `int`. -/
def IsInt (n : Int) : Prop := -2 ^ 31 ≤ n ∧ n < 2 ^ 31

instance (n : Int) : Decidable (IsInt n) := inferInstanceAs (Decidable (_ ∧ _))

/-- What the fields of a message can hold. -/
structure Request.OfInts (req : Request) : Prop where
  operation : IsInt req.operation
  arg1 : IsInt req.arg1
  arg2 : IsInt req.arg2
  name : req.Fits

/-- A message of any process is executed, when no other is. -/
def Executes (m : Memory) (x : Request × Allocator) (m' : Memory) : Prop :=
  x.1.OfInts ∧ (serve x.2 x.1 m).2 = m'

/-! ## Safety -/

/-- What is computed from sizes is an `int`: those of the vectors are compared after 1 has been
subtracted, and the one of the storage goes up and down by 1. -/
structure Bounded (m : Memory) : Prop where
  sizes : ∀ v ∈ m.stored, 0 ≤ v.size ∧ IsInt v.size ∧ IsInt (v.size - 1)
  size : IsInt m.storage.size
  capacity : IsInt m.storage.capacity

/-- The vector and the index of the element that a call goes to. A thread that waits for the mutex
goes to none. -/
def accessed : Event Action.Answer → Option (Nat × Int)
  | ⟨.store _ _ _, .error .blocked⟩ => none
  | ⟨.store result i _, _⟩ => some (result, i)
  | ⟨.load result i, _⟩ => some (result, i)
  | _ => none

/-- Doubling the capacity overflows. -/
def overflows : Event Action.Answer → Bool
  | ⟨.append _, .error .overflow⟩ => true
  | _ => false

/-- No element outside a vector is accessed, and no size overflows. -/
structure SafelyExecuted (m : Memory) (req : Request) (allocator : Allocator) : Prop where
  accesses : ∀ e ∈ (functionSelector req).trace (perform allocator) m,
    ∀ result i, accessed e = some (result, i) →
      ∃ v, m.stored[result]? = some v ∧ 0 ≤ i ∧ i ≤ v.size - 1
  noOverflow : ∀ e ∈ (functionSelector req).trace (perform allocator) m, overflows e = false

/-- The index of a stored vector is negative, in a `get` or in a `set` that has the mutex. -/
def NegativeIndex (m : Memory) (req : Request) : Prop :=
  (req.operation = 1 ∧ m.locked = false ∨ req.operation = 2) ∧
    (∃ v ∈ m.stored, v.name = req.name) ∧ req.arg1 < 0

/-- A vector is to be appended to a storage whose capacity cannot be doubled. -/
def CapacityExceeded (m : Memory) (req : Request) (allocator : Allocator) : Prop :=
  req.operation = 0 ∧ (∀ v ∈ m.stored, v.name ≠ req.name) ∧
    (callocBlock allocator.calloc req.arg1).isSome ∧ m.locked = false ∧
      m.storage.capacity ≤ m.storage.size ∧ 2 ^ 31 ≤ m.storage.capacity * 2

/-! ## Sizes -/

/-- The invariant: the storage holds vectors whose sizes are those of blocks, and no more than its
capacity. -/
structure Sized (m : Memory) : Prop where
  holds : ∃ l, Holds m l ∧ ∀ v ∈ l, v.size < 2 ^ 31
  size_le : m.storage.size ≤ m.storage.capacity
  capacity_lt : m.storage.capacity < 2 ^ 31

/-- The storage that `main` sets up. -/
theorem sized_initialMemory : Sized initialMemory where
  holds := ⟨[], holds_initialMemory, nofun⟩
  size_le := by decide
  capacity_lt := by decide

/-- None of the sizes is negative, so that 1 can be subtracted from them. -/
theorem Sized.bounded {m : Memory} (h : Sized m) : Bounded m := by
  obtain ⟨⟨l, hl, hsizes⟩, hle, hlt⟩ := h
  refine ⟨?_, ?_, ?_⟩
  · rw [hl.stored_eq]
    intro v hv
    have hsize := hsizes v hv
    have hlen := v.size_eq
    unfold IsInt
    omega
  · unfold IsInt
    omega
  · unfold IsInt
    omega

/-- What the body of a section keeps, the section keeps. -/
theorem Memory.storage_underMutex {α : Type} {Q : Storage → Prop} {m : Memory}
    {body : Storage → Except Fault (α × Storage)} {keeps : α → Bool} (h : Q m.storage)
    (hbody : ∀ a s, body m.storage = .ok (a, s) → Q s) :
    Q (m.underMutex body keeps).2.storage := by
  unfold Memory.underMutex
  split
  · exact h
  · cases hb : body m.storage with
    | error fault => exact h
    | ok result => exact hbody result.1 result.2 hb

/-- The bounds of a storage. -/
def Storage.Within (s : Storage) : Prop := s.size ≤ s.capacity ∧ s.capacity < 2 ^ 31

/-- A push into a storage that is not full. -/
theorem Storage.push_within {s s' : Storage} {v : Vector} (h : s.size < s.capacity)
    (hlt : s.capacity < 2 ^ 31) (hpush : s.push v = .ok s') : s'.Within := by
  unfold Storage.push at hpush
  split at hpush
  · cases hpush
  · obtain rfl := Except.ok.inj hpush
    exact ⟨h, hlt⟩

/-- A computation that gives a result has taken one from its first part. -/
theorem exists_of_bind_ok {α β : Type} {x : Except Fault α} {f : α → Except Fault β} {b : β}
    (h : x >>= f = .ok b) : ∃ a, x = .ok a ∧ f a = .ok b := by
  cases x with
  | error fault => cases h
  | ok a => exact ⟨a, rfl, h⟩

/-- An append doubles the capacity before it goes beyond it. -/
theorem Storage.append_within {s s' : Storage} {realloc b : Bool} {v : Vector} (h : s.Within)
    (hpos : 0 < s.capacity) (happ : s.append realloc v = .ok (b, s')) : s'.Within := by
  obtain ⟨hle, hlt⟩ := h
  unfold Storage.append at happ
  split at happ
  · dsimp only at happ
    split at happ
    · cases happ
    · rename_i hint
      split at happ
      · obtain ⟨s₁, hpush, hs₁⟩ := exists_of_bind_ok happ
        obtain rfl := (Prod.mk.inj (Except.ok.inj hs₁)).2
        exact Storage.push_within (by dsimp only; omega) (by dsimp only; omega) hpush
      · obtain rfl := (Prod.mk.inj (Except.ok.inj happ)).2
        exact ⟨by dsimp only; omega, by dsimp only; omega⟩
  · rename_i hroom
    obtain ⟨s₁, hpush, hs₁⟩ := exists_of_bind_ok happ
    obtain rfl := (Prod.mk.inj (Except.ok.inj hs₁)).2
    exact Storage.push_within (by omega) hlt hpush

theorem Storage.store_within {s s' : Storage} {result : Nat} {i value : Int} {u : Unit}
    (h : s.Within) (hstore : s.store result i value = .ok (u, s')) : s'.Within := by
  obtain ⟨vector, -, hstore⟩ := exists_of_bind_ok hstore
  obtain ⟨x, -, hstore⟩ := exists_of_bind_ok hstore
  split at hstore
  · cases hstore
  · obtain rfl := (Prod.mk.inj (Except.ok.inj hstore)).2
    exact h

theorem Storage.remove_within {s s' : Storage} {result : Nat} {u : Unit} (h : s.Within)
    (hremove : s.remove result = .ok (u, s')) : s'.Within := by
  obtain ⟨vector, -, hremove⟩ := exists_of_bind_ok hremove
  split at hremove
  · cases hremove
  · obtain rfl := (Prod.mk.inj (Except.ok.inj hremove)).2
    exact ⟨Nat.le_trans (Nat.sub_le _ _) h.1, h.2⟩

/-- A vector that a call appends has the size of a block of an `int`. -/
def AppendsSized (a : Action) : Prop := ∀ v, a = .append v → v.size < 2 ^ 31

/-- **Every call keeps the sizes in their bounds.** -/
theorem Sized.performed {m : Memory} (h : Sized m) (allocator : Allocator) {a : Action}
    (ha : AppendsSized a) : Sized (perform allocator a m).2 := by
  obtain ⟨⟨l, hl, hsizes⟩, hle, hlt⟩ := h
  have hwithin : Storage.Within (perform allocator a m).2.storage := by
    cases a with
    | append v =>
      exact Memory.storage_underMutex ⟨hle, hlt⟩ fun b s happ =>
        Storage.append_within ⟨hle, hlt⟩ hl.capacity_pos happ
    | store result i value =>
      exact Memory.storage_underMutex ⟨hle, hlt⟩ fun u s hstore =>
        Storage.store_within ⟨hle, hlt⟩ hstore
    | remove result =>
      exact Memory.storage_underMutex ⟨hle, hlt⟩ fun u s hremove =>
        Storage.remove_within ⟨hle, hlt⟩ hremove
    | _ => exact ⟨hle, hlt⟩
  refine ⟨?_, hwithin.1, hwithin.2⟩
  obtain ⟨l', hp, hl'⟩ := hl.performed allocator a
  refine ⟨l', hl', ?_⟩
  generalize (perform allocator a m).1 = x at hp
  intro v hv
  cases hp with
  | appended w =>
    rcases List.mem_append.1 hv with hv | hv
    · exact hsizes v hv
    · rw [List.mem_singleton.1 hv]
      exact ha w rfl
  | @stored result i value hr =>
    rcases List.mem_or_eq_of_mem_set hv with hv | rfl
    · exact hsizes v hv
    · have hsize := hsizes l[result] (List.getElem_mem hr)
      exact hsize
  | removed hr => exact hsizes v (List.mem_of_mem_eraseIdx hv)
  | _ => exact hsizes v hv

/-! ## Calls -/

/-- The calls of a request, by its operation. -/
def Asks (req : Request) : Action → Prop
  | .findVector name => name = req.name
  | .sizeAt _ => True
  | .calloc size => req.operation = 0 ∧ size = req.arg1
  | .append v => req.operation = 0 ∧ v.name = req.name ∧ v.size = req.arg1
  | .store _ i value => req.operation = 1 ∧ i = req.arg1 ∧ value = req.arg2
  | .load _ i => req.operation = 2 ∧ i = req.arg1
  | .remove _ => req.operation = 3

namespace Asks

variable {req : Request}

theorem init (hop : req.operation = 0) : req.init.Always fun a _ => Asks req a := by
  unfold Request.init
  refine always_ask rfl fun found => ?_
  cases found with
  | none =>
    refine always_ask ⟨hop, rfl⟩ fun block => ?_
    cases block with
    | none => trivial
    | some block =>
      refine always_ask ⟨hop, rfl, rfl⟩ fun appended => ?_
      cases appended with
      | false => trivial
      | true => trivial
  | some result =>
    refine always_ask trivial fun size => ?_
    unfold Request.initSized
    split <;> trivial

theorem set (hop : req.operation = 1) : req.set.Always fun a _ => Asks req a := by
  unfold Request.set
  refine always_ask rfl fun found => ?_
  cases found with
  | none => trivial
  | some result =>
    refine always_ask trivial fun size => ?_
    unfold Request.setSized
    split
    · trivial
    · exact always_ask ⟨hop, rfl, rfl⟩ fun _ => trivial

theorem get (hop : req.operation = 2) : req.get.Always fun a _ => Asks req a := by
  unfold Request.get
  refine always_ask rfl fun found => ?_
  cases found with
  | none => trivial
  | some result =>
    refine always_ask trivial fun size => ?_
    unfold Request.getSized
    split
    · trivial
    · exact always_ask ⟨hop, rfl⟩ fun _ => trivial

theorem destroy (hop : req.operation = 3) : req.destroy.Always fun a _ => Asks req a := by
  unfold Request.destroy
  refine always_ask rfl fun found => ?_
  cases found with
  | none => trivial
  | some result => exact always_ask hop fun _ => trivial

/-- The calls of a request are about its own name, size, index and value. -/
theorem functionSelector (req : Request) :
    (functionSelector req).Always fun a _ => Asks req a := by
  unfold Exercise1.functionSelector
  split_ifs with h0 h1 h2 h3
  · exact init h0
  · exact set h1
  · exact get h2
  · exact destroy h3
  · trivial

/-- What a request with int fields appends has a size that is an int. -/
theorem appendsSized {a : Action} (h : Asks req a) (hreq : req.OfInts) : AppendsSized a := by
  rintro v rfl
  rw [h.2.2]
  exact hreq.arg1.2

end Asks

/-- **The sizes stay in their bounds**, whatever is executed. -/
theorem Sized.serve {m : Memory} (h : Sized m) {req : Request} (hreq : req.OfInts)
    (allocator : Allocator) : Sized (serve allocator req m).2 :=
  Program.keeps_of_always (fun _ ha _ hs => hs.performed allocator (ha.appendsSized hreq))
    (Asks.functionSelector req) h

section Trace

variable {m m' : Memory} {l : List Vector} {req : Request} {allocator : Allocator}

/-- A call with a result, and then the calls of what follows. -/
theorem trace_ask {a : Action} {x : a.Result} {next : a.Result → Selector}
    (h : perform allocator a m = (.ok x, m')) :
    (ask a next).trace (perform allocator) m =
      ⟨a, .ok x⟩ :: (next x).trace (perform allocator) m' := by
  unfold ask
  rw [Program.trace_call, h]

/-- A call after which nothing else is called. -/
theorem trace_ask_last {a : Action} {next : a.Result → Selector}
    (h : ∀ x, (next x).action? = none) :
    (ask a next).trace (perform allocator) m = [⟨a, (perform allocator a m).1⟩] := by
  unfold ask
  rw [Program.trace_call]
  congr 1
  cases (perform allocator a m).1 with
  | error fault => rfl
  | ok x =>
    have hx := h x
    dsimp only
    cases hnext : next x with
    | done r => rfl
    | call b next' =>
      rw [hnext] at hx
      cases hx

/-! ## Elements -/

/-- `set` and `get` alike go to an element of a vector of the name when the index is none behind
it. -/
theorem exists_accessed_iff (h : Holds m l) {found : Option Nat → Selector}
    (final : Nat → Action) (last : (result : Nat) → (final result).Result → Selector)
    (hnone : found none = answer (-1))
    (hsome : ∀ result, found (some result) = ask (.sizeAt result) fun size =>
      if size - 1 < req.arg1 then answer (-1) else ask (final result) (last result))
    (hlast : ∀ result x, (last result x).action? = none) (access : Nat × Int) :
    (∃ e ∈ (ask (.findVector req.name) found).trace (perform allocator) m,
        accessed e = some access) ↔
      ∃ result v, l.findIdx? (fun v => v.name = req.name) = some result ∧ l[result]? = some v ∧
        req.arg1 ≤ v.size - 1 ∧
          accessed ⟨final result, (perform allocator (final result) m).1⟩ = some access := by
  rw [trace_ask (h.perform_findVector allocator req.name)]
  cases hfind : l.findIdx? fun v => v.name = req.name with
  | none =>
    rw [hnone]
    constructor
    · rintro ⟨e, he, haccess⟩
      rw [List.mem_singleton.1 he] at haccess
      cases haccess
    · rintro ⟨result, v, hresult, -⟩
      cases hresult
  | some result =>
    obtain ⟨hr, -⟩ := findIdx?_key_eq_some hfind
    rw [hsome, trace_ask (h.perform_sizeAt allocator hr)]
    constructor
    · rintro ⟨e, he, haccess⟩
      rcases List.mem_cons.1 he with rfl | he
      · cases haccess
      rcases List.mem_cons.1 he with rfl | he
      · cases haccess
      split at he
      · exact absurd he List.not_mem_nil
      · rename_i hi
        rw [trace_ask_last (hlast result)] at he
        rw [List.mem_singleton.1 he] at haccess
        exact ⟨result, l[result], rfl, List.getElem?_eq_getElem hr, Int.not_lt.1 hi, haccess⟩
    · rintro ⟨result', v, hresult, hv, hi, haccess⟩
      obtain rfl := Option.some.inj hresult
      rw [List.getElem?_eq_getElem hr] at hv
      obtain rfl := Option.some.inj hv
      refine ⟨_, ?_, haccess⟩
      rw [if_neg (Int.not_lt.2 hi), trace_ask_last (hlast result)]
      simp

/-- A `set` can fail only by leaving the storage. -/
theorem Storage.outside_of_store {s : Storage} {result : Nat} {i value : Int} {fault : Fault}
    (h : s.store result i value = .error fault) : fault = .outside := by
  unfold Storage.store at h
  cases hv : s.vectorAt result with
  | error fault' =>
    rw [hv] at h
    obtain rfl := Except.error.inj h
    unfold Storage.vectorAt at hv
    split at hv
    · split at hv
      · exact (Except.error.inj hv).symm
      · cases hv
    · exact (Except.error.inj hv).symm
  | ok vector =>
    rw [hv] at h
    cases hx : vector.elementAt i with
    | error fault' =>
      simp only [bind, Except.bind, hx] at h
      obtain rfl := Except.error.inj h
      unfold Vector.elementAt at hx
      split at hx
      · split at hx
        · exact (Except.error.inj hx).symm
        · cases hx
      · exact (Except.error.inj hx).symm
    | ok x =>
      simp only [bind, Except.bind, hx] at h
      split at h
      · exact (Except.error.inj h).symm
      · cases h

/-- A `set` goes to its element once it has the mutex. -/
theorem accessed_store {result : Nat} {i value : Int} :
    accessed ⟨.store result i value, (perform allocator (.store result i value) m).1⟩ =
      if m.locked then none else some (result, i) := by
  change accessed ⟨.store result i value, (m.underMutex (Storage.store result i value) _).1⟩ = _
  unfold Memory.underMutex
  cases hl : m.locked with
  | true => rfl
  | false =>
    cases hstore : m.storage.store result i value with
    | error fault =>
      obtain rfl := Storage.outside_of_store hstore
      simp only [Bool.false_eq_true, if_false]
      rfl
    | ok x =>
      simp only [Bool.false_eq_true, if_false]
      rfl

theorem accessed_load {result : Nat} {i : Int} (x : (Action.load result i).Answer) :
    accessed ⟨.load result i, x⟩ = some (result, i) := rfl

/-- Only `set` and `get` go to elements. -/
theorem operation_of_accessed {e : Event Action.Answer} {access : Nat × Int}
    (h : accessed e = some access) (hasks : Asks req e.1) :
    req.operation = 1 ∨ req.operation = 2 := by
  obtain ⟨a, x⟩ := e
  cases a with
  | store result i value => exact .inl hasks.1
  | load result i => exact .inr hasks.1
  | _ => cases h

/-- A `set` goes to an element when it has the mutex. -/
theorem accesses_set_iff (h : Holds m l) (hop : req.operation = 1) (result : Nat) (i : Int) :
    (∃ e ∈ (functionSelector req).trace (perform allocator) m,
        accessed e = some (result, i)) ↔
      m.locked = false ∧ i = req.arg1 ∧
        ∃ v, l.findIdx? (fun v => v.name = req.name) = some result ∧ l[result]? = some v ∧
          req.arg1 ≤ v.size - 1 := by
  rw [functionSelector_set hop]
  unfold Request.set
  rw [exists_accessed_iff h (fun result => .store result req.arg1 req.arg2)
    (fun _ _ => answer 0) rfl (fun _ => rfl) (fun _ _ => rfl)]
  simp only [accessed_store]
  constructor
  · rintro ⟨result', v, hfind, hv, hi, haccess⟩
    cases hl : m.locked with
    | true =>
      rw [hl] at haccess
      cases haccess
    | false =>
      rw [hl] at haccess
      obtain ⟨rfl, rfl⟩ := Prod.mk.inj (Option.some.inj haccess)
      exact ⟨rfl, rfl, v, hfind, hv, hi⟩
  · rintro ⟨hl, rfl, v, hfind, hv, hi⟩
    refine ⟨result, v, hfind, hv, hi, ?_⟩
    rw [hl]
    rfl

/-- A `get` reads at its own index, if the name is stored and the index is below the size. -/
theorem accesses_get_iff (h : Holds m l) (hop : req.operation = 2) (result : Nat) (i : Int) :
    (∃ e ∈ (functionSelector req).trace (perform allocator) m,
        accessed e = some (result, i)) ↔
      i = req.arg1 ∧
        ∃ v, l.findIdx? (fun v => v.name = req.name) = some result ∧ l[result]? = some v ∧
          req.arg1 ≤ v.size - 1 := by
  rw [functionSelector_get hop]
  unfold Request.get
  rw [exists_accessed_iff h (fun result => .load result req.arg1)
    (fun result data => .done (.ok ⟨result, some data⟩)) rfl (fun _ => rfl) (fun _ _ => rfl)]
  simp only [accessed_load]
  constructor
  · rintro ⟨result', v, hfind, hv, hi, haccess⟩
    obtain ⟨rfl, rfl⟩ := Prod.mk.inj (Option.some.inj haccess)
    exact ⟨rfl, v, hfind, hv, hi⟩
  · rintro ⟨rfl, v, hfind, hv, hi⟩
    exact ⟨result, v, hfind, hv, hi, rfl⟩

/-- The element that a request goes to. -/
theorem accesses_iff (h : Holds m l) (result : Nat) (i : Int) :
    (∃ e ∈ (functionSelector req).trace (perform allocator) m,
        accessed e = some (result, i)) ↔
      (req.operation = 1 ∧ m.locked = false ∨ req.operation = 2) ∧ i = req.arg1 ∧
        ∃ v, l.findIdx? (fun v => v.name = req.name) = some result ∧ l[result]? = some v ∧
          req.arg1 ≤ v.size - 1 := by
  by_cases hset : req.operation = 1
  · rw [accesses_set_iff h hset]
    refine and_congr_left fun _ => ⟨fun hl => .inl ⟨hset, hl⟩, fun hop => ?_⟩
    exact hop.elim And.right fun hget => by omega
  by_cases hget : req.operation = 2
  · rw [accesses_get_iff h hget]
    exact (and_iff_right (.inr hget)).symm
  · constructor
    · rintro ⟨e, he, haccess⟩
      have hasks := Program.of_mem_trace (Asks.functionSelector req) he
      exact ((operation_of_accessed haccess hasks).elim hset hget).elim
    · rintro ⟨hop, -⟩
      exact (hop.elim (fun h1 => hset h1.1) hget).elim

/-- All accesses of a request are inside a vector exactly when its index is not negative, if it
comes to that. -/
theorem accesses_inside_iff (h : Holds m l) :
    (∀ e ∈ (functionSelector req).trace (perform allocator) m,
      ∀ result i, accessed e = some (result, i) →
        ∃ v, m.stored[result]? = some v ∧ 0 ≤ i ∧ i ≤ v.size - 1) ↔ ¬ NegativeIndex m req := by
  unfold NegativeIndex
  rw [h.stored_eq]
  constructor
  · rintro hinside ⟨hop, ⟨v, hv, hname⟩, hneg⟩
    cases hfind : l.findIdx? fun v => v.name = req.name with
    | none =>
      rw [List.findIdx?_eq_none_iff] at hfind
      exact absurd hname (of_decide_eq_false (hfind v hv))
    | some result =>
      obtain ⟨hr, -⟩ := findIdx?_key_eq_some hfind
      have hlen := l[result].size_eq
      obtain ⟨e, he, haccess⟩ := (@accesses_iff m l req allocator h result req.arg1).2
        ⟨hop, rfl, l[result], hfind, List.getElem?_eq_getElem hr, by omega⟩
      obtain ⟨_, -, h0, -⟩ := hinside e he result req.arg1 haccess
      omega
  · intro hneg e he result i haccess
    obtain ⟨hop, rfl, v, hfind, hv, hi⟩ := (accesses_iff h result i).1 ⟨e, he, haccess⟩
    refine ⟨v, hv, ?_, hi⟩
    by_contra h0
    obtain ⟨hr, hname⟩ := findIdx?_key_eq_some hfind
    exact hneg ⟨hop, ⟨l[result], List.getElem_mem hr, hname⟩, by omega⟩

/-! ## Capacity -/

/-- An append overflows when the storage is full and its capacity cannot be doubled. -/
theorem overflows_append_iff (h : Holds m l) (v : Vector) :
    overflows ⟨.append v, (perform allocator (.append v) m).1⟩ = true ↔
      m.locked = false ∧ m.storage.capacity ≤ m.storage.size ∧ 2 ^ 31 ≤ m.storage.capacity * 2 := by
  change overflows ⟨.append v, (m.underMutex (Storage.append allocator.realloc v) _).1⟩ = true ↔ _
  unfold Memory.underMutex
  cases hl : m.locked with
  | true => exact iff_of_false Bool.false_ne_true fun hfree => absurd hfree.1 (by decide)
  | false =>
    by_cases hover : m.storage.capacity ≤ m.storage.size ∧ 2 ^ 31 ≤ m.storage.capacity * 2
    · have happ : m.storage.append allocator.realloc v = .error .overflow := by
        unfold Storage.append
        rw [if_pos hover.1]
        exact if_pos hover.2
      rw [happ]
      exact iff_of_true rfl ⟨rfl, hover⟩
    · have hok : ∃ b s, m.storage.append allocator.realloc v = .ok (b, s) := by
        by_cases hroom : m.storage.capacity ≤ m.storage.size →
            allocator.realloc = true ∧ m.storage.capacity * 2 < 2 ^ 31
        · obtain ⟨s, happ, -⟩ := h.append hl allocator.realloc v hroom
          exact ⟨true, s, happ⟩
        · obtain ⟨hfull, hnone⟩ := Classical.not_imp.1 hroom
          rcases h.append_full v hfull hnone with happ | ⟨s, happ, -⟩
          · unfold Storage.append at happ
            rw [if_pos hfull] at happ
            dsimp only at happ
            rw [if_neg fun hint => hover ⟨hfull, hint⟩] at happ
            split at happ
            · rename_i hrealloc
              exact absurd ⟨hrealloc, by omega⟩ hnone
            · cases happ
          · exact ⟨false, s, happ⟩
      obtain ⟨b, s, happ⟩ := hok
      rw [happ]
      exact iff_of_false Bool.false_ne_true fun hfull => hover hfull.2

theorem exists_mem_cons_overflows {e : Event Action.Answer} {events : List (Event Action.Answer)}
    (he : overflows e = false) :
    (∃ e' ∈ e :: events, overflows e' = true) ↔ ∃ e' ∈ events, overflows e' = true := by
  rw [List.exists_mem_cons_iff, he]
  exact or_iff_right Bool.false_ne_true

/-- An `init` of a name that is stored appends nothing. -/
theorem initFound_not_overflows (h : Holds m l) {result : Nat} (hr : result < l.length) :
    ¬ ∃ e ∈ (req.initFound (some result)).trace (perform allocator) m, overflows e = true := by
  unfold Request.initFound
  rw [trace_ask (h.perform_sizeAt allocator hr), exists_mem_cons_overflows rfl]
  rintro ⟨e, he, -⟩
  unfold Request.initSized at he
  split at he <;> exact absurd he List.not_mem_nil

/-- An `init` of a new name overflows when its vector is allocated and there is no capacity. -/
theorem initFound_overflows_iff (h : Holds m l) :
    (∃ e ∈ (req.initFound none).trace (perform allocator) m, overflows e = true) ↔
      (callocBlock allocator.calloc req.arg1).isSome ∧ m.locked = false ∧
        m.storage.capacity ≤ m.storage.size ∧ 2 ^ 31 ≤ m.storage.capacity * 2 := by
  have hcalloc : perform allocator (.calloc req.arg1) m =
      (.ok (callocBlock allocator.calloc req.arg1), m) := rfl
  unfold Request.initFound
  rw [trace_ask hcalloc, exists_mem_cons_overflows rfl]
  cases hblock : callocBlock allocator.calloc req.arg1 with
  | none =>
    refine iff_of_false ?_ fun hfull => absurd hfull.1 Bool.false_ne_true
    rintro ⟨e, he, -⟩
    exact absurd he List.not_mem_nil
  | some block =>
    unfold Request.initAllocated
    rw [trace_ask_last (fun appended => by cases appended <;> rfl)]
    constructor
    · rintro ⟨e, he, hover⟩
      rw [List.mem_singleton.1 he] at hover
      exact ⟨rfl, (overflows_append_iff h _).1 hover⟩
    · rintro ⟨-, hfull⟩
      exact ⟨_, by simp, (@overflows_append_iff m l allocator h
        ⟨req.name, req.arg1, block.1, block.2⟩).2 hfull⟩

/-- A request overflows exactly when it has a vector to append that there is no capacity for. -/
theorem overflows_iff (h : Holds m l) :
    (∃ e ∈ (functionSelector req).trace (perform allocator) m, overflows e = true) ↔
      CapacityExceeded m req allocator := by
  unfold CapacityExceeded
  by_cases hop : req.operation = 0
  · rw [functionSelector_init hop, h.stored_eq]
    unfold Request.init
    rw [trace_ask (h.perform_findVector allocator req.name), exists_mem_cons_overflows rfl]
    cases hfind : l.findIdx? fun v => v.name = req.name with
    | some result =>
      obtain ⟨hr, hname⟩ := findIdx?_key_eq_some hfind
      refine iff_of_false (initFound_not_overflows h hr) fun hnew => ?_
      exact hnew.2.1 l[result] (List.getElem_mem hr) hname
    | none =>
      have hnew : ∀ v ∈ l, v.name ≠ req.name := by
        intro v hv
        rw [List.findIdx?_eq_none_iff] at hfind
        exact of_decide_eq_false (hfind v hv)
      rw [initFound_overflows_iff h]
      exact ⟨fun hfull => ⟨hop, hnew, hfull⟩, fun hfull => hfull.2.2⟩
  · refine iff_of_false ?_ fun hfull => hop hfull.1
    rintro ⟨⟨a, x⟩, he, hover⟩
    have hasks := Program.of_mem_trace (Asks.functionSelector req) he
    cases a with
    | append v => exact hop hasks.1
    | _ => cases hover

/-- **A message is executed safely** exactly when it neither has a negative index for a stored
vector nor exceeds the capacity. -/
theorem safelyExecuted_iff (h : Holds m l) :
    SafelyExecuted m req allocator ↔
      ¬ NegativeIndex m req ∧ ¬ CapacityExceeded m req allocator := by
  rw [← @accesses_inside_iff m l req allocator h, ← overflows_iff h]
  constructor
  · intro hsafe
    refine ⟨hsafe.accesses, ?_⟩
    rintro ⟨e, he, hover⟩
    rw [hsafe.noOverflow e he] at hover
    cases hover
  · rintro ⟨haccesses, hnone⟩
    refine ⟨haccesses, fun e he => ?_⟩
    cases hover : overflows e with
    | false => rfl
    | true => exact absurd ⟨e, he, hover⟩ hnone

end Trace

/-! ## Runs -/

/-- The sizes stay within ints in all runs of requests with int fields. -/
theorem sized_of_run {steps : List (Memory × (Request × Allocator))} {m : Memory}
    (h : Run Executes initialMemory steps m) : Sized m := by
  induction h with
  | nil => exact sized_initialMemory
  | snoc _ hs ih => exact hs.2 ▸ ih.serve hs.1 _

/-- Every message so far has been executed safely, and all states have been in their bounds. -/
def SafeRun (steps : List (Memory × (Request × Allocator))) (m : Memory) : Prop :=
  (∀ x ∈ steps, Bounded x.1 ∧ SafelyExecuted x.1 x.2.1 x.2.2) ∧ Bounded m

/-- **The server is safe against the messages of a run** exactly when none of them has a negative
index for a stored vector or exceeds the capacity. -/
theorem safeRun_iff {steps : List (Memory × (Request × Allocator))} {m : Memory}
    (h : Run Executes initialMemory steps m) :
    SafeRun steps m ↔
      Guarded (fun m x => ¬ NegativeIndex m x.1 ∧ ¬ CapacityExceeded m x.1 x.2) steps := by
  induction h with
  | nil => exact iff_of_true ⟨nofun, sized_initialMemory.bounded⟩ (guarded_nil _)
  | @snoc steps m m' x hrun hs ih =>
    have hsized : Sized m := sized_of_run hrun
    obtain ⟨l, hl, -⟩ := hsized.holds
    rw [guarded_snoc, ← ih, ← @safelyExecuted_iff m l x.1 x.2 hl]
    constructor
    · rintro ⟨hsteps, -⟩
      obtain ⟨hbefore, hlast⟩ := List.forall_mem_append.1 hsteps
      exact ⟨⟨hbefore, hsized.bounded⟩, (hlast _ List.mem_cons_self).2⟩
    · rintro ⟨⟨hbefore, hm⟩, hlast⟩
      refine ⟨List.forall_mem_append.2 ⟨hbefore, ?_⟩, (sized_of_run (hrun.snoc hs)).bounded⟩
      intro y hy
      rw [List.mem_singleton.1 hy]
      exact ⟨hm, hlast⟩

def getV1 (i : Int) : Request := ⟨2, [118, 49], i, 0⟩

theorem initV1_ofInts : initV1.OfInts :=
  ⟨by decide, by decide, by decide, Nat.le_of_ble_eq_true rfl⟩

theorem getV1_ofInts {i : Int} (h : IsInt i) : (getV1 i).OfInts :=
  ⟨show IsInt 2 by decide, h, show IsInt 0 by decide, Nat.le_of_ble_eq_true rfl⟩

/-- `v1` is created, and then a message gets an element of it. -/
theorem run_getV1 {i : Int} (h : IsInt i) :
    Run Executes initialMemory
      [(initialMemory, (initV1, allocating)),
        ((serve allocating initV1 initialMemory).2, (getV1 i, allocating))]
      (serve allocating (getV1 i) (serve allocating initV1 initialMemory).2).2 :=
  (Run.nil.snoc ⟨initV1_ofInts, rfl⟩).snoc ⟨getV1_ofInts h, rfl⟩

/-- The element 0. -/
theorem getV1_safe :
    SafeRun
      [(initialMemory, (initV1, allocating)),
        ((serve allocating initV1 initialMemory).2, (getV1 0, allocating))]
      (serve allocating (getV1 0) (serve allocating initV1 initialMemory).2).2 := by
  refine (safeRun_iff (run_getV1 (by decide))).2 ?_
  intro x hx
  rcases List.mem_cons.1 hx with rfl | hx
  · refine ⟨fun hneg => absurd hneg.1 (by decide), fun hfull => ?_⟩
    exact absurd hfull.2.2.2.2.1 (by decide)
  · rw [List.mem_singleton.1 hx]
    exact ⟨fun hneg => absurd hneg.2.2 (by decide), fun hfull => absurd hfull.1 (by decide)⟩

/-- The element -1. -/
theorem getV1_unsafe :
    ¬ ∀ (steps : List (Memory × (Request × Allocator))) (m : Memory),
      Run Executes initialMemory steps m → SafeRun steps m := by
  intro h
  have hsafe := ((h _ _ (run_getV1 (i := -1) (by decide))).1 _
    (List.mem_cons_of_mem _ List.mem_cons_self)).2
  have htrace : (functionSelector (getV1 (-1))).trace (perform allocating)
      (serve allocating initV1 initialMemory).2 =
        [⟨.findVector [118, 49], .ok (some 0)⟩, ⟨.sizeAt 0, .ok 1⟩,
          ⟨.load 0 (-1), .error .outside⟩] := rfl
  obtain ⟨v, -, h0, -⟩ := hsafe.accesses ⟨.load 0 (-1), .error .outside⟩
    (by dsimp only; rw [htrace]; simp) 0 (-1) rfl
  exact absurd h0 (by decide)

end DistributedSystems.Exercise1
