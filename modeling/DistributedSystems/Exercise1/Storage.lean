import DistributedSystems.Exercise1.Server

/-!
# The stored vectors

`Holds m l` says that the storage array holds the vectors of the list `l`, in this order. Every
call of the server is then an operation on `l` (`Performed`), and the rest of the development argues
about lists.
-/

namespace DistributedSystems.Exercise1

open Support

/-- The storage array holds these vectors, and unless a thread was left with the mutex there are as
many slots as `capacity` says. -/
structure Holds (m : Memory) (l : List Vector) : Prop where
  size_eq : m.storage.size = l.length
  fills : m.storage.vectors.Fills l
  capacity_pos : 0 < m.storage.capacity
  slots : m.locked = false → m.storage.vectors.length = m.storage.capacity

/-- The storage that `main` sets up holds nothing. -/
theorem holds_initialMemory : Holds initialMemory [] where
  size_eq := rfl
  fills := .nil _
  capacity_pos := by decide
  slots := fun _ => rfl

/-- The element of a vector at an index that is in range. -/
theorem Vector.elementAt_eq {v : Vector} {i : Int} (h0 : 0 ≤ i) (hi : i.toNat < v.elements.length) :
    v.elementAt i = .ok v.elements[i.toNat] := by
  unfold Vector.elementAt
  rw [if_pos h0, List.getElem?_eq_getElem hi]

theorem Vector.elementAt_outside {v : Vector} {i : Int}
    (hi : ¬ (0 ≤ i ∧ i.toNat < v.elements.length)) : v.elementAt i = .error .outside := by
  unfold Vector.elementAt
  by_cases h0 : 0 ≤ i
  · have hlen : v.elements.length ≤ i.toNat := Nat.le_of_not_lt fun h => hi ⟨h0, h⟩
    rw [if_pos h0, List.getElem?_eq_none hlen]
  · rw [if_neg h0]

namespace Holds

variable {m : Memory} {l : List Vector} {realloc : Bool} {result : Nat} {i : Int}

/-- While the mutex is free, the vectors fit the capacity. -/
theorem size_le_capacity (h : Holds m l) (hfree : m.locked = false) :
    m.storage.size ≤ m.storage.capacity := by
  rw [h.size_eq, ← h.slots hfree]
  exact h.fills.length_le

/-- `find_vector` gives the index of the first vector of the name. -/
theorem findVector (h : Holds m l) (name : Bytes) :
    m.storage.findVector name = .ok (l.findIdx? fun v => v.name = name) := by
  unfold Storage.findVector
  rw [h.size_eq, h.fills.search_eq]

theorem vectorAt (h : Holds m l) (hr : result < l.length) :
    m.storage.vectorAt result = .ok l[result] := by
  unfold Storage.vectorAt
  rw [if_pos (h.size_eq ▸ hr), h.fills.read_eq hr, List.getElem?_eq_getElem hr]

theorem vectorAt_outside (h : Holds m l) (hr : ¬ result < l.length) :
    m.storage.vectorAt result = .error .outside := by
  unfold Storage.vectorAt
  rw [if_neg (h.size_eq ▸ hr)]

section Reading

variable (h : Holds m l) (allocator : Allocator)
include h

theorem perform_findVector (name : Bytes) :
    perform allocator (.findVector name) m = (.ok (l.findIdx? fun v => v.name = name), m) := by
  simp only [perform, h.findVector]

theorem perform_sizeAt (hr : result < l.length) :
    perform allocator (.sizeAt result) m = (.ok l[result].size, m) := by
  simp only [perform, h.vectorAt hr]
  rfl

theorem perform_load {i : Int} (hr : result < l.length) (h0 : 0 ≤ i)
    (hi : i.toNat < l[result].elements.length) :
    perform allocator (.load result i) m = (.ok l[result].elements[i.toNat], m) := by
  simp only [perform, h.vectorAt hr, bind, Except.bind, Vector.elementAt_eq h0 hi]

end Reading

/-! ## Sections -/

/-- A slot that is free takes a vector. -/
theorem push {s : Storage} (hsize : s.size = l.length) (hfills : s.vectors.Fills l)
    (hpos : 0 < s.capacity) (hslots : s.vectors.length = s.capacity) (hroom : s.size < s.capacity)
    (v : Vector) : ∃ s', s.push v = .ok s' ∧ Holds ⟨s', false⟩ (l ++ [v]) := by
  have hlen : l.length < s.vectors.length := by rw [hslots, ← hsize]; exact hroom
  obtain ⟨vectors, hstore, hfills', hlen'⟩ := hfills.push (a := v) hlen
  refine ⟨{ s with size := s.size + 1, vectors := vectors }, ?_, ?_, hfills', hpos, fun _ => ?_⟩
  · unfold Storage.push
    rw [hsize, hstore]
  · rw [List.length_append, List.length_singleton, ← hsize]
  · exact hlen'.trans hslots

/-- An append for which there is memory. -/
theorem append (h : Holds m l) (hfree : m.locked = false) (realloc : Bool) (v : Vector)
    (hroom : m.storage.capacity ≤ m.storage.size →
      realloc = true ∧ m.storage.capacity * 2 < 2 ^ 31) :
    ∃ s, m.storage.append realloc v = .ok (true, s) ∧ Holds ⟨s, false⟩ (l ++ [v]) := by
  have hslots := h.slots hfree
  have hpos := h.capacity_pos
  unfold Storage.append
  by_cases hfull : m.storage.capacity ≤ m.storage.size
  · obtain ⟨rfl, hint⟩ := hroom hfull
    have hsize : m.storage.size ≤ m.storage.capacity := h.size_le_capacity hfree
    obtain ⟨s, hpush, hs⟩ := push (s := { m.storage with
        capacity := m.storage.capacity * 2
        vectors := m.storage.vectors ++
          List.replicate (m.storage.capacity * 2 - m.storage.vectors.length) none })
      h.size_eq (h.fills.append _) (Nat.mul_pos hpos (by decide))
      (by simp only [List.length_append, List.length_replicate]; omega) (by simp only; omega) v
    refine ⟨s, ?_, hs⟩
    simp only [if_pos hfull, if_neg (Nat.not_le.2 hint), if_true, hpush]
    rfl
  · obtain ⟨s, hpush, hs⟩ := push h.size_eq h.fills hpos hslots (Nat.not_le.1 hfull) v
    refine ⟨s, ?_, hs⟩
    simp only [if_neg hfull, hpush]
    rfl

/-- An append for which there is none leaves the mutex held. -/
theorem append_full (h : Holds m l) (v : Vector) (hfull : m.storage.capacity ≤ m.storage.size)
    (hnone : ¬ (realloc = true ∧ m.storage.capacity * 2 < 2 ^ 31)) :
    m.storage.append realloc v = .error .overflow ∨
      ∃ s, m.storage.append realloc v = .ok (false, s) ∧ Holds ⟨s, true⟩ l := by
  unfold Storage.append
  rw [if_pos hfull]
  by_cases hint : 2 ^ 31 ≤ m.storage.capacity * 2
  · exact Or.inl (if_pos hint)
  · have hrealloc : ¬ realloc = true := fun hr => hnone ⟨hr, Nat.not_le.1 hint⟩
    refine Or.inr ⟨{ m.storage with capacity := m.storage.capacity * 2 }, ?_, ?_⟩
    · simp only [if_neg hint, if_neg hrealloc]
    · exact ⟨h.size_eq, h.fills, Nat.mul_pos h.capacity_pos (by decide), fun hl => nomatch hl⟩

/-- A `set` at an element that is there. -/
theorem store (h : Holds m l) (hfree : m.locked = false) (value : Int) (hr : result < l.length)
    (h0 : 0 ≤ i) (hi : i.toNat < l[result].elements.length) :
    ∃ s, m.storage.store result i value = .ok ((), s) ∧
      Holds ⟨s, false⟩ (l.set result (l[result].setElement i value)) := by
  obtain ⟨vectors, hstore, hfills, hlen⟩ := h.fills.set (a := l[result].setElement i value) hr
  refine ⟨{ m.storage with vectors := vectors }, ?_, ?_, hfills, h.capacity_pos, fun _ => ?_⟩
  · unfold Storage.store
    rw [h.vectorAt hr]
    simp only [bind, Except.bind, Vector.elementAt_eq h0 hi, hstore]
  · rw [List.length_set]; exact h.size_eq
  · exact hlen.trans (h.slots hfree)

/-- A `destroy` at an index that is there closes the gap. -/
theorem remove (h : Holds m l) (hfree : m.locked = false) (hr : result < l.length) :
    ∃ s, m.storage.remove result = .ok ((), s) ∧ Holds ⟨s, false⟩ (l.eraseIdx result) := by
  obtain ⟨vectors, hgap, hfills, hlen⟩ := h.fills.closeGap hr
  refine ⟨{ m.storage with size := m.storage.size - 1, vectors := vectors }, ?_, ?_, hfills,
    h.capacity_pos, fun _ => ?_⟩
  · unfold Storage.remove
    rw [h.vectorAt hr]
    simp only [bind, Except.bind, h.size_eq, hgap]
  · rw [List.length_eraseIdx_of_lt hr, ← h.size_eq]
  · exact hlen.trans (h.slots hfree)

end Holds

/-! ## One call -/

/-- Every access of the call is in range. -/
def InRange (l : List Vector) : Action → Prop
  | .sizeAt result => result < l.length
  | .store result i _ => ∃ h : result < l.length, 0 ≤ i ∧ i.toNat < l[result].elements.length
  | .load result i => ∃ h : result < l.length, 0 ≤ i ∧ i.toNat < l[result].elements.length
  | .remove result => result < l.length
  | _ => True

/-- The outcomes of a call on the stored vectors. -/
inductive Performed (l : List Vector) : (a : Action) → a.Answer → List Vector → Prop
  | findVector (name : Bytes) :
      Performed l (.findVector name) (.ok (l.findIdx? fun v => v.name = name)) l
  | sizeAt {result : Nat} (hr : result < l.length) :
      Performed l (.sizeAt result) (.ok l[result].size) l
  | calloc (size : Int) (block : Option (Block size)) : Performed l (.calloc size) (.ok block) l
  | appended (v : Vector) : Performed l (.append v) (.ok true) (l ++ [v])
  | noMemory (v : Vector) : Performed l (.append v) (.ok false) l
  | stored {result : Nat} {i : Int} (value : Int) (hr : result < l.length) (h0 : 0 ≤ i)
      (hi : i.toNat < l[result].elements.length) :
      Performed l (.store result i value) (.ok ()) (l.set result (l[result].setElement i value))
  | loaded {result : Nat} {i : Int} (hr : result < l.length) (h0 : 0 ≤ i)
      (hi : i.toNat < l[result].elements.length) :
      Performed l (.load result i) (.ok l[result].elements[i.toNat]) l
  | removed {result : Nat} (hr : result < l.length) :
      Performed l (.remove result) (.ok ()) (l.eraseIdx result)
  | fault (a : Action) (fault : Fault) (hf : fault = .outside → ¬ InRange l a) :
      Performed l a (.error fault) l

namespace Holds

variable {m : Memory} {l : List Vector}

/-- A thread that is stopped with the mutex leaves it held. -/
theorem lock (h : Holds m l) : Holds { m with locked := true } l :=
  ⟨h.size_eq, h.fills, h.capacity_pos, fun hl => nomatch hl⟩

/-- A section, by what its body does when the mutex is free. -/
theorem performed_section {a : Action} {body : Storage → Except Fault (a.Result × Storage)}
    {keeps : a.Result → Bool} (h : Holds m l)
    (hbody : m.locked = false →
      (∃ x s l', body m.storage = .ok (x, s) ∧ Performed l a (.ok x) l' ∧ Holds ⟨s, keeps x⟩ l') ∨
        ∃ f, body m.storage = .error f ∧ (f = .outside → ¬ InRange l a)) :
    ∃ l', Performed l a (m.underMutex body keeps).1 l' ∧ Holds (m.underMutex body keeps).2 l' := by
  unfold Memory.underMutex
  cases hl : m.locked with
  | true => exact ⟨l, .fault a .blocked (by simp), h⟩
  | false =>
    rcases hbody hl with ⟨x, s, l', hb, hp, hs⟩ | ⟨f, hb, hf⟩
    · simp only [hb, Bool.false_eq_true, if_false]
      exact ⟨l', hp, hs⟩
    · simp only [hb, Bool.false_eq_true, if_false]
      exact ⟨l, .fault a f hf, h.lock⟩

/-- What an `init` appends, by what there is room and memory for. -/
theorem performed_append (h : Holds m l) (allocator : Allocator) (v : Vector) :
    ∃ l', Performed l (.append v) (perform allocator (.append v) m).1 l' ∧
      Holds (perform allocator (.append v) m).2 l' := by
  refine h.performed_section (a := .append v) fun hl => ?_
  by_cases hroom : m.storage.capacity ≤ m.storage.size →
      allocator.realloc = true ∧ m.storage.capacity * 2 < 2 ^ 31
  · obtain ⟨s, happ, hs⟩ := h.append hl allocator.realloc v hroom
    exact Or.inl ⟨true, s, l ++ [v], happ, .appended v, hs⟩
  · obtain ⟨hfull, hnone⟩ := Classical.not_imp.1 hroom
    rcases h.append_full v hfull hnone with happ | ⟨s, happ, hs⟩
    · exact Or.inr ⟨.overflow, happ, by simp⟩
    · exact Or.inl ⟨false, s, l, happ, .noMemory v, hs⟩

/-- What the section of a `set` does, at any index. -/
theorem performed_store (h : Holds m l) (allocator : Allocator) (result : Nat) (i value : Int) :
    ∃ l', Performed l (.store result i value) (perform allocator (.store result i value) m).1 l' ∧
      Holds (perform allocator (.store result i value) m).2 l' := by
  refine h.performed_section (a := .store result i value) fun hl => ?_
  by_cases hr : result < l.length
  · by_cases hi : 0 ≤ i ∧ i.toNat < l[result].elements.length
    · obtain ⟨s, hstore, hs⟩ := h.store hl value hr hi.1 hi.2
      exact Or.inl ⟨(), s, _, hstore, .stored value hr hi.1 hi.2, hs⟩
    · refine Or.inr ⟨.outside, ?_, fun _ hin => hi ⟨hin.2.1, hin.2.2⟩⟩
      unfold Storage.store
      rw [h.vectorAt hr]
      simp only [bind, Except.bind, Vector.elementAt_outside hi]
  · refine Or.inr ⟨.outside, ?_, fun _ hin => hr hin.1⟩
    unfold Storage.store
    rw [h.vectorAt_outside hr]
    rfl

/-- What the section of a `destroy` does, at any index. -/
theorem performed_remove (h : Holds m l) (allocator : Allocator) (result : Nat) :
    ∃ l', Performed l (.remove result) (perform allocator (.remove result) m).1 l' ∧
      Holds (perform allocator (.remove result) m).2 l' := by
  refine h.performed_section (a := .remove result) fun hl => ?_
  by_cases hr : result < l.length
  · obtain ⟨s, hremove, hs⟩ := h.remove hl hr
    exact Or.inl ⟨(), s, _, hremove, .removed hr, hs⟩
  · refine Or.inr ⟨.outside, ?_, fun _ hin => hr hin⟩
    unfold Storage.remove
    rw [h.vectorAt_outside hr]
    rfl

/-- What a `get` reads, at any index. -/
theorem performed_load (h : Holds m l) (allocator : Allocator) (result : Nat) (i : Int) :
    Performed l (.load result i) (perform allocator (.load result i) m).1 l := by
  change Performed l (.load result i) (m.storage.vectorAt result >>= (·.elementAt i)) l
  by_cases hr : result < l.length
  · rw [h.vectorAt hr]
    change Performed l (.load result i) (l[result].elementAt i) l
    by_cases hi : 0 ≤ i ∧ i.toNat < l[result].elements.length
    · rw [Vector.elementAt_eq hi.1 hi.2]
      exact .loaded hr hi.1 hi.2
    · rw [Vector.elementAt_outside hi]
      exact .fault _ _ fun _ hin => hi ⟨hin.2.1, hin.2.2⟩
  · rw [h.vectorAt_outside hr]
    exact .fault _ _ fun _ hin => hr hin.1

/-- **Every call is an operation on the list** of the stored vectors. -/
theorem performed (h : Holds m l) (allocator : Allocator) (a : Action) :
    ∃ l', Performed l a (perform allocator a m).1 l' ∧ Holds (perform allocator a m).2 l' := by
  cases a with
  | findVector name =>
    refine ⟨l, ?_, h⟩
    simp only [perform, h.findVector]
    exact .findVector name
  | sizeAt result =>
    refine ⟨l, ?_, h⟩
    by_cases hr : result < l.length
    · simp only [perform, h.vectorAt hr]
      exact .sizeAt hr
    · simp only [perform, h.vectorAt_outside hr]
      exact .fault _ _ fun _ hin => hr hin
  | calloc size => exact ⟨l, .calloc size _, h⟩
  | append v => exact h.performed_append allocator v
  | store result i value => exact h.performed_store allocator result i value
  | load result i => exact ⟨l, h.performed_load allocator result i, h⟩
  | remove result => exact h.performed_remove allocator result

end Holds

end DistributedSystems.Exercise1
