import DistributedSystems.Exercise1.Storage
import DistributedSystems.Support.Keyed

/-!
# Looked-up vectors of concurrent requests

A request looks its vector up outside the mutex and uses the index inside it, and `destroy` moves
all later vectors. Every request acts on a vector of its name in a run in which no `destroy` removes
a vector while another thread has an index at or behind it (`onNamed_of_settled`). Nothing in the
code makes that so: `set_hits_other` is a schedule of two threads.
-/

namespace DistributedSystems.Exercise1

open Support

/-- The server with a thread for each request. -/
def vectorServer : System Memory Request Allocator Action.Answer (Except Fault Response) where
  start := functionSelector
  exec := perform

abbrev VectorThread := Thread Request Action.Answer (Except Fault Response)

abbrev VectorPool := Pool Memory Request Action.Answer (Except Fault Response)

abbrev VectorMove := Move Request Allocator

/-- The server before the first request. -/
def initialPool : VectorPool := ⟨initialMemory, []⟩

/-! ## What a move is to do -/

/-- `storage.vectors[0..size-1]`. -/
def Memory.stored (m : Memory) : List Vector := (m.storage.vectors.take m.storage.size).filterMap id

/-- The stored vectors are those that the memory holds. -/
theorem Holds.stored_eq {m : Memory} {l : List Vector} (h : Holds m l) : m.stored = l := by
  obtain ⟨tail, htail⟩ := h.fills
  unfold Memory.stored
  rw [← htail, h.size_eq, List.take_left' (by simp), List.filterMap_map]
  simp

/-- Only the element that a `set` names becomes its value, in a vector of its name. -/
def WritesNamed (l : List Vector) (r : Request) (l' : List Vector) : Prop :=
  ∃ result, ∃ h : result < l.length, l[result].name = r.name ∧ 0 ≤ r.arg1 ∧
    r.arg1.toNat < l[result].elements.length ∧
    l' = l.set result (l[result].setElement r.arg1 r.arg2)

/-- One vector goes, and it has the name of the `destroy`. -/
def RemovesNamed (l : List Vector) (r : Request) (l' : List Vector) : Prop :=
  ∃ result, ∃ h : result < l.length, l[result].name = r.name ∧ l' = l.eraseIdx result

/-- A call for the request acts on vectors of its name, and makes no access out of range. It comes
with the result that it ends the thread with, if it does. -/
structure ActsOnNamed (l : List Vector) (r : Request) (result : Option (Except Fault Response))
    (l' : List Vector) : Prop where
  set : r.operation = 1 →
    (∃ data, result = some (.ok ⟨0, data⟩)) ∧ WritesNamed l r l' ∨
      (∀ data, result ≠ some (.ok ⟨0, data⟩)) ∧ l' = l
  get : r.operation = 2 → l' = l ∧
    ∀ output data, result = some (.ok ⟨output, data⟩) → output ≠ -1 →
      ∃ v ∈ l, v.name = r.name ∧ 0 ≤ r.arg1 ∧ data.isSome ∧ data = v.elements[r.arg1.toNat]?
  destroy : r.operation = 3 →
    (∃ data, result = some (.ok ⟨1, data⟩)) ∧ RemovesNamed l r l' ∨
      (∀ data, result ≠ some (.ok ⟨1, data⟩)) ∧ l' = l
  inside : result ≠ some (.error .outside)

/-- Whatever call the move makes acts on vectors of the name of its request. -/
def OnNamed (p : VectorPool) (m : VectorMove) : Prop :=
  ∀ r a, System.called p m = some (r, a) →
    ActsOnNamed p.shared.stored r ((vectorServer.returned p m).map Prod.snd)
      (vectorServer.move p m).shared.stored

/-- The index with which a call goes to the array. -/
def Action.index? : Action → Option Nat
  | .sizeAt result => some result
  | .store result _ _ => some result
  | .load result _ => some result
  | .remove result => some result
  | _ => none

/-- A thread is at or behind an index with its next call. -/
def Reaches (result : Nat) (t : VectorThread) : Prop :=
  ∃ k ∈ t.rest.action?.bind Action.index?, result ≤ k

/-- The index at which a move removes a vector. -/
def removedAt (p : VectorPool) (m : VectorMove) : Option Nat :=
  match System.called p m with
  | some (_, .remove result) => some result
  | _ => none

/-- A removal finds no other thread at or behind its index, and requests index from 0 on. -/
def Settled (p : VectorPool) (m : VectorMove) : Prop :=
  (∀ r ∈ m.spawned?, r.operation = 1 ∨ r.operation = 2 → 0 ≤ r.arg1) ∧
    ∀ result ∈ removedAt p m, ∀ t ∈ p.others m, ¬ Reaches result t

instance (result : Nat) (t : VectorThread) : Decidable (Reaches result t) :=
  inferInstanceAs (Decidable (∃ k ∈ t.rest.action?.bind Action.index?, result ≤ k))

instance (p : VectorPool) (m : VectorMove) : Decidable (Settled p m) :=
  inferInstanceAs (Decidable ((∀ r ∈ m.spawned?, _) ∧ ∀ result ∈ removedAt p m, _))

/-! ## Threads -/

/-- The name of a vector and how many elements it has, neither of which ever changes. -/
def Vector.shape (v : Vector) : Bytes × Nat := (v.name, v.elements.length)

/-- There is a vector of the name at the index. -/
def Named (l : List Vector) (name : Bytes) (result : Nat) : Prop :=
  ∃ n, l[result]?.map Vector.shape = some (name, n)

/-- There is a vector of the name at the index, with such an element. -/
def NamedElement (l : List Vector) (name : Bytes) (result : Nat) (i : Int) : Prop :=
  ∃ n, l[result]?.map Vector.shape = some (name, n) ∧ 0 ≤ i ∧ i.toNat < n

/-- An index that is found has the name. -/
theorem named_of_findIdx? {l : List Vector} {name : Bytes} {result : Nat}
    (h : l.findIdx? (fun v => v.name = name) = some result) : Named l name result := by
  obtain ⟨hr, hname⟩ := findIdx?_key_eq_some h
  refine ⟨l[result].elements.length, ?_⟩
  rw [List.getElem?_eq_getElem hr, ← hname]
  rfl

theorem Named.getElem {l : List Vector} {name : Bytes} {result : Nat} (h : Named l name result) :
    ∃ hr : result < l.length, l[result].name = name := by
  obtain ⟨n, hn⟩ := h
  obtain ⟨v, hv, hshape⟩ := Option.map_eq_some_iff.1 hn
  obtain ⟨hr, rfl⟩ := List.getElem?_eq_some_iff.1 hv
  exact ⟨hr, congrArg Prod.fst hshape⟩

theorem NamedElement.getElem {l : List Vector} {name : Bytes} {result : Nat} {i : Int}
    (h : NamedElement l name result i) : ∃ hr : result < l.length, l[result].name = name ∧ 0 ≤ i ∧
      i.toNat < l[result].elements.length := by
  obtain ⟨n, hn, h0, hi⟩ := h
  obtain ⟨v, hv, hshape⟩ := Option.map_eq_some_iff.1 hn
  obtain ⟨hr, rfl⟩ := List.getElem?_eq_some_iff.1 hv
  refine ⟨hr, congrArg Prod.fst hshape, h0, ?_⟩
  have hlen : l[result].elements.length = n := congrArg Prod.snd hshape
  rwa [hlen]

namespace ActsOnNamed

variable {l l' : List Vector} {r : Request} {result : Option (Except Fault Response)}

/-- An `init` may do what it likes. -/
theorem init (hop : r.operation = 0) (hin : result ≠ some (.error .outside)) :
    ActsOnNamed l r result l' := by
  constructor
  · intro h; rw [hop] at h; cases h
  · intro h; rw [hop] at h; cases h
  · intro h; rw [hop] at h; cases h
  · exact hin

/-- A call that changes nothing and answers with an error, if at all. -/
theorem quiet (hin : result ≠ some (.error .outside))
    (hres : ∀ output data, result = some (.ok ⟨output, data⟩) → output = -1) :
    ActsOnNamed l r result l where
  set _ := by
    refine Or.inr ⟨fun data hr => ?_, rfl⟩
    cases hres 0 data hr
  get _ := ⟨rfl, fun output data hr hne => absurd (hres output data hr) hne⟩
  destroy _ := by
    refine Or.inr ⟨fun data hr => ?_, rfl⟩
    cases hres 1 data hr
  inside := hin

theorem writes {data : Option Int} (hop : r.operation = 1) (h : WritesNamed l r l') :
    ActsOnNamed l r (some (.ok ⟨0, data⟩)) l' := by
  constructor
  · intro _; exact Or.inl ⟨⟨data, rfl⟩, h⟩
  · intro h; rw [hop] at h; cases h
  · intro h; rw [hop] at h; cases h
  · simp

theorem reads {output x : Int} {v : Vector} (hop : r.operation = 2) (hv : v ∈ l)
    (hname : v.name = r.name) (h0 : 0 ≤ r.arg1) (hx : some x = v.elements[r.arg1.toNat]?) :
    ActsOnNamed l r (some (.ok ⟨output, some x⟩)) l := by
  constructor
  · intro h; rw [hop] at h; cases h
  · intro _
    refine ⟨rfl, fun output' data hr _ => ?_⟩
    cases hr
    exact ⟨v, hv, hname, h0, rfl, hx⟩
  · intro h; rw [hop] at h; cases h
  · simp

theorem removes {data : Option Int} (hop : r.operation = 3) (h : RemovesNamed l r l') :
    ActsOnNamed l r (some (.ok ⟨1, data⟩)) l' := by
  constructor
  · intro h; rw [hop] at h; cases h
  · intro h; rw [hop] at h; cases h
  · intro _; exact Or.inl ⟨⟨data, rfl⟩, h⟩
  · simp

end ActsOnNamed

/-- The bound that `set` and `get` check gives them an element. -/
theorem Named.element {l : List Vector} {name : Bytes} {result : Nat} {i : Int}
    (h : Named l name result) (h0 : 0 ≤ i) (hr : result < l.length)
    (hsize : ¬ l[result].size - 1 < i) : NamedElement l name result i := by
  obtain ⟨n, hn⟩ := h
  refine ⟨n, hn, h0, ?_⟩
  rw [List.getElem?_eq_getElem hr] at hn
  have hlen : l[result].elements.length = n := congrArg Prod.snd (Option.some.inj hn)
  rw [l[result].size_eq, hlen] at hsize
  omega

/-- What is left of a request, with what its index leads to. -/
inductive Stage (l : List Vector) (r : Request) : Selector → Prop
  | done (x : Except Fault Response) : Stage l r (.done x)
  | initFind (hop : r.operation = 0) : Stage l r (ask (.findVector r.name) r.initFound)
  | initSize {result : Nat} (hop : r.operation = 0) (h : Named l r.name result) :
      Stage l r (ask (.sizeAt result) r.initSized)
  | initCalloc (hop : r.operation = 0) : Stage l r (ask (.calloc r.arg1) r.initAllocated)
  | initAppend {v : Vector} (hop : r.operation = 0) :
    Stage l r (ask (.append v) Request.initAppended)
  | setFind (hop : r.operation = 1) (h0 : 0 ≤ r.arg1) :
      Stage l r (ask (.findVector r.name) r.setFound)
  | setSize {result : Nat} (hop : r.operation = 1) (h0 : 0 ≤ r.arg1)
      (h : Named l r.name result) : Stage l r (ask (.sizeAt result) (r.setSized result))
  | setStore {result : Nat} (hop : r.operation = 1) (h : NamedElement l r.name result r.arg1) :
      Stage l r (ask (.store result r.arg1 r.arg2) fun _ => answer 0)
  | getFind (hop : r.operation = 2) (h0 : 0 ≤ r.arg1) :
      Stage l r (ask (.findVector r.name) r.getFound)
  | getSize {result : Nat} (hop : r.operation = 2) (h0 : 0 ≤ r.arg1)
      (h : Named l r.name result) : Stage l r (ask (.sizeAt result) (r.getSized result))
  | getLoad {result : Nat} (hop : r.operation = 2) (h : NamedElement l r.name result r.arg1) :
      Stage l r (ask (.load result r.arg1) fun data => .done (.ok ⟨result, some data⟩))
  | destroyFind (hop : r.operation = 3) :
      Stage l r (ask (.findVector r.name) Request.destroyFound)
  | destroyRemove {result : Nat} (hop : r.operation = 3) (h : Named l r.name result) :
      Stage l r (ask (.remove result) fun _ => answer 1)

theorem Stage.answer (l : List Vector) (r : Request) (output : Int) :
    Stage l r (answer output) := .done _

/-- A request begins before its look-up. -/
theorem Stage.start (l : List Vector) {r : Request}
    (h : r.operation = 1 ∨ r.operation = 2 → 0 ≤ r.arg1) : Stage l r (functionSelector r) := by
  unfold functionSelector
  split_ifs with h0 h1 h2 h3
  · exact .initFind h0
  · exact .setFind h1 (h (Or.inl h1))
  · exact .getFind h2 (h (Or.inr h2))
  · exact .destroyFind h3
  · exact .answer l r (-1)

/-- What a call leaves of the vector at an index that it does not take away. -/
theorem Performed.shape {l l' : List Vector} {a : Action} {x : a.Answer} {k : Nat}
    {z : Bytes × Nat} (h : Performed l a x l') (hk : ∀ result, a = .remove result → k < result)
    (hz : l[k]?.map Vector.shape = some z) : l'[k]?.map Vector.shape = some z := by
  cases h with
  | appended v =>
    obtain ⟨v', hv', hz⟩ := Option.map_eq_some_iff.1 hz
    rw [List.getElem?_append_left (List.getElem?_eq_some_iff.1 hv').1, hv', ← hz]
    rfl
  | @stored result i value hr h0 hi =>
    rw [List.getElem?_set]
    split
    · rename_i hresult
      subst hresult
      rw [List.getElem?_eq_getElem hr] at hz
      rw [← hz]
      simp [Vector.shape, Vector.setElement]
    · exact hz
  | @removed result hr =>
    rwa [List.getElem?_eraseIdx_of_lt (hk result rfl)]
  | _ => exact hz

namespace Stage

variable {l l' : List Vector} {r : Request} {a : Action} {x : a.Answer}

/-- What a thread waits to do stays possible while another thread makes a call, unless that removes
a vector at or before its index. -/
theorem frame {rest : Selector} (h : Stage l r rest) (hp : Performed l a x l')
    (hk : ∀ result, a = .remove result → ¬ Reaches result ⟨r, rest⟩) : Stage l' r rest := by
  have hnamed : ∀ k, rest.action?.bind Action.index? = some k → Named l r.name k →
      Named l' r.name k := by
    intro k hidx hn
    obtain ⟨n, hn⟩ := hn
    refine ⟨n, hp.shape (fun result hr => ?_) hn⟩
    exact Nat.not_le.1 fun hle => hk result hr ⟨k, hidx, hle⟩
  have helement : ∀ k i, rest.action?.bind Action.index? = some k → NamedElement l r.name k i →
      NamedElement l' r.name k i := by
    intro k i hidx hn
    obtain ⟨n, hn, h0, hi⟩ := hn
    refine ⟨n, hp.shape (fun result hr => ?_) hn, h0, hi⟩
    exact Nat.not_le.1 fun hle => hk result hr ⟨k, hidx, hle⟩
  cases h with
  | done x => exact .done x
  | initFind hop => exact .initFind hop
  | initSize hop h => exact .initSize hop (hnamed _ rfl h)
  | initCalloc hop => exact .initCalloc hop
  | initAppend hop => exact .initAppend hop
  | setFind hop h0 => exact .setFind hop h0
  | setSize hop h0 h => exact .setSize hop h0 (hnamed _ rfl h)
  | setStore hop h => exact .setStore hop (helement _ _ rfl h)
  | getFind hop h0 => exact .getFind hop h0
  | getSize hop h0 h => exact .getSize hop h0 (hnamed _ rfl h)
  | getLoad hop h => exact .getLoad hop (helement _ _ rfl h)
  | destroyFind hop => exact .destroyFind hop
  | destroyRemove hop h => exact .destroyRemove hop (hnamed _ rfl h)

end Stage

/-- A call leaves a thread at a stage, and acts on vectors of its name. -/
def Lands (l l' : List Vector) (r : Request) (rest : Selector) : Prop :=
  Stage l' r rest ∧ ActsOnNamed l r rest.result? l'

namespace Lands

variable {l l' : List Vector} {r : Request} {rest : Selector} {a : Action}

theorem init (hop : r.operation = 0) (h : Stage l' r rest)
    (hin : rest.result? ≠ some (.error .outside)) : Lands l l' r rest :=
  ⟨h, .init hop hin⟩

theorem waiting (h : Stage l r rest) (hnone : rest.result? = none) : Lands l l r rest :=
  ⟨h, .quiet (by simp [hnone]) (by simp [hnone])⟩

theorem refused : Lands l l r (answer (-1)) :=
  ⟨.done _, .quiet (by simp [answer, Program.result?]) (by simp [answer, Program.result?])⟩

theorem fault {f : Fault} (hf : f = .outside → ¬ InRange l a) (hin : InRange l a) :
    Lands l l r (.done (.error f)) := by
  refine ⟨.done _, .quiet (fun h => ?_) (by simp [Program.result?])⟩
  cases h
  exact hf rfl hin

/-- After the look-up. -/
theorem found {name : Bytes} {next : Option Nat → Selector} (hnone : Lands l l r (next none))
    (hsome : ∀ result, Named l name result → Lands l l r (next (some result))) :
    Lands l l r (next (l.findIdx? fun v => v.name = name)) := by
  cases hfind : l.findIdx? fun v => v.name = name with
  | none => exact hnone
  | some result => exact hsome result (named_of_findIdx? hfind)

/-- After the check of the index. -/
theorem checked {result : Nat} {i : Int} {inside : Selector} (h : Named l r.name result)
    (h0 : 0 ≤ i) (hr : result < l.length)
    (hinside : NamedElement l r.name result i → Lands l l r inside) :
    Lands l l r (if l[result].size - 1 < i then answer (-1) else inside) := by
  by_cases hsize : l[result].size - 1 < i
  · rw [if_pos hsize]
    exact .refused
  · rw [if_neg hsize]
    exact hinside (h.element h0 hr hsize)

end Lands

/-- A call in range ends the thread with its fault or goes on with its result. -/
theorem Performed.lands {l l' : List Vector} {r : Request} {a : Action} {x : a.Answer}
    {next : a.Answer → Selector} (hp : Performed l a x l') (hin : InRange l a)
    (after : a.Result → Selector) (hnext : Program.call a next = ask a after)
    (hok : ∀ y, Performed l a (.ok y) l' → Lands l l' r (after y)) :
    Lands l l' r (next x) := by
  cases hnext
  cases x with
  | error f =>
    cases hp with
    | fault _ _ hf => exact .fault hf hin
  | ok y => exact hok y hp

/-- **One call of a thread**, at any of its stages. -/
theorem Stage.lands {l l' : List Vector} {r : Request} {a : Action} {x : a.Answer}
    {next : a.Answer → Selector} (h : Stage l r (.call a next)) (hp : Performed l a x l') :
    Lands l l' r (next x) := by
  cases h with
  | initFind hop =>
    refine hp.lands trivial r.initFound rfl fun y hy => ?_
    cases hy
    exact .found (.init hop (.initCalloc hop) (by nofun)) fun _ hn =>
      .init hop (.initSize hop hn) (by nofun)
  | @initSize result hop h =>
    refine hp.lands h.getElem.1 r.initSized rfl fun y hy => ?_
    cases hy with
    | sizeAt hr =>
      unfold Request.initSized
      split
      · exact .init hop (.answer l r 0) (by nofun)
      · exact .refused
  | initCalloc hop =>
    refine hp.lands trivial r.initAllocated rfl fun block hy => ?_
    cases hy
    cases block with
    | none => exact .refused
    | some block => exact .init hop (.initAppend hop) (by nofun)
  | initAppend hop =>
    refine hp.lands trivial Request.initAppended rfl fun y hy => ?_
    cases hy with
    | appended v => exact .init hop (.answer _ r 1) (by nofun)
    | noMemory v => exact .refused
  | setFind hop h0 =>
    refine hp.lands trivial r.setFound rfl fun y hy => ?_
    cases hy
    exact .found .refused fun _ hn => .waiting (.setSize hop h0 hn) rfl
  | @setSize result hop h0 h =>
    refine hp.lands h.getElem.1 (r.setSized result) rfl fun y hy => ?_
    cases hy with
    | sizeAt hr => exact .checked h h0 hr fun he => .waiting (.setStore hop he) rfl
  | @setStore result hop h =>
    obtain ⟨hr, hname, h0, hi⟩ := h.getElem
    refine hp.lands ⟨hr, h0, hi⟩ _ rfl fun y hy => ?_
    cases hy
    exact ⟨.answer _ r 0, .writes hop ⟨result, hr, hname, h0, hi, rfl⟩⟩
  | getFind hop h0 =>
    refine hp.lands trivial r.getFound rfl fun y hy => ?_
    cases hy
    exact .found .refused fun _ hn => .waiting (.getSize hop h0 hn) rfl
  | @getSize result hop h0 h =>
    refine hp.lands h.getElem.1 (r.getSized result) rfl fun y hy => ?_
    cases hy with
    | sizeAt hr => exact .checked h h0 hr fun he => .waiting (.getLoad hop he) rfl
  | @getLoad result hop h =>
    obtain ⟨hr, hname, h0, hi⟩ := h.getElem
    refine hp.lands ⟨hr, h0, hi⟩ _ rfl fun y hy => ?_
    cases hy
    refine ⟨.done _, .reads hop (List.getElem_mem hr) hname h0 ?_⟩
    exact (List.getElem?_eq_getElem hi).symm
  | destroyFind hop =>
    refine hp.lands trivial Request.destroyFound rfl fun y hy => ?_
    cases hy
    exact .found .refused fun _ hn => .waiting (.destroyRemove hop hn) rfl
  | @destroyRemove result hop h =>
    obtain ⟨hr, hname⟩ := h.getElem
    refine hp.lands hr _ rfl fun y hy => ?_
    cases hy
    exact ⟨.answer _ r 1, .removes hop ⟨result, hr, hname, rfl⟩⟩

/-! ## Runs -/

/-- The invariant: every thread is at a stage of its request. -/
def Looked (p : VectorPool) : Prop :=
  ∃ l, Holds p.shared l ∧ ∀ t ∈ p.threads, Stage l t.request t.rest

namespace Looked

variable {p : VectorPool} {m : VectorMove}

/-- Before the first move nothing has been looked up. -/
theorem init : Looked initialPool :=
  ⟨[], holds_initialMemory, fun _ ht => absurd ht List.not_mem_nil⟩

/-- A settled move acts on the vectors named, and leaves the look-ups of the others right. -/
theorem step (h : Looked p) (hG : Settled p m) :
    OnNamed p m ∧ Looked (vectorServer.move p m) := by
  obtain ⟨l, hl, hstage⟩ := h
  unfold OnNamed
  have hm := vectorServer.moved p m
  generalize vectorServer.move p m = p' at hm
  cases hm with
  | spawned r =>
    refine ⟨fun r' a hc => ?_, l, hl, fun t ht => ?_⟩
    · cases hc
    rcases List.mem_append.1 ht with ht | ht
    · exact hstage t ht
    · rw [List.mem_singleton.1 ht]
      exact .start l (hG.1 r rfl)
  | idle i env hc hr =>
    refine ⟨fun r a hca => ?_, l, hl, hstage⟩
    rw [hc] at hca
    cases hca
  | @called env before after r a next ht hc hr =>
    obtain ⟨l', hp, hl'⟩ := hl.performed env a
    have hthread : Stage l r (.call a next) := hstage ⟨r, .call a next⟩ (by simp [ht])
    obtain ⟨hnext, hacts⟩ := hthread.lands hp
    refine ⟨fun r' a' hca => ?_, l', hl', fun t htm => ?_⟩
    · rw [hc] at hca
      obtain ⟨rfl, rfl⟩ := Prod.mk.inj (Option.some.inj hca)
      have hresult : (vectorServer.returned p (.run before.length env)).map Prod.snd =
          (next (perform env a p.shared).1).result? := by
        rw [hr, Option.map_map]
        exact Option.map_id_apply
      rw [hresult, hl.stored_eq]
      rw [← hl'.stored_eq] at hacts
      exact hacts
    · have hother : t ∈ before ∨ t ∈ after → Stage l' t.request t.rest := by
        intro hmem
        have hold : Stage l t.request t.rest := by
          apply hstage
          rw [ht, List.mem_append, List.mem_cons]
          exact hmem.imp_right Or.inr
        refine hold.frame hp fun result hresult => ?_
        subst hresult
        apply hG.2 result
        · unfold removedAt
          rw [hc]
          rfl
        · rw [Pool.others_run ht, List.mem_append]
          exact hmem
      rcases List.mem_append.1 htm with hb | hb
      · exact hother (Or.inl hb)
      rcases List.mem_cons.1 hb with rfl | hb
      · exact hnext
      · exact hother (Or.inr hb)

end Looked

/-- **Every request acts on a vector of its name** and inside the storage, in every run in which no
`destroy` removes a vector while another thread has an index at or behind it. -/
theorem onNamed_of_settled {steps : List (VectorPool × VectorMove)} {p : VectorPool}
    (h : Run vectorServer.Step initialPool steps p) (hG : Guarded Settled steps) :
    ∀ x ∈ steps, OnNamed x.1 x.2 := by
  have hI := h.history_of_guard (I := fun steps p => Looked p ∧ ∀ x ∈ steps, OnNamed x.1 x.2)
    ⟨Looked.init, fun _ hx => absurd hx List.not_mem_nil⟩ ?_ hG
  · exact hI.2
  · intro steps p m p' hI hG hs
    obtain ⟨hp, hsteps⟩ := hI
    obtain ⟨hon, hp'⟩ := hp.step hG
    refine ⟨hs ▸ hp', fun x hx => ?_⟩
    rcases List.mem_append.1 hx with hx | hx
    · exact hsteps x hx
    · rw [List.mem_singleton.1 hx]
      exact hon

/-- Requests of clients: the vectors `v1` and `v2` with one element, and the removal of `v1`. -/
def initV1 : Request := ⟨0, [118, 49], 1, 0⟩

def initV2 : Request := ⟨0, [118, 50], 1, 0⟩

def setV1 : Request := ⟨1, [118, 49], 0, 7⟩

def destroyV1 : Request := ⟨3, [118, 49], 0, 0⟩

/-- `v1` is set and removed before it is removed again. -/
theorem v1_onNamed :
    let steps := vectorServer.schedule initialPool [.spawn initV1, .run 0 allocating,
      .run 0 allocating, .run 0 allocating, .spawn setV1, .run 1 allocating, .run 1 allocating,
      .run 1 allocating, .spawn destroyV1, .run 2 allocating, .run 2 allocating]
    Guarded Settled steps ∧ ∀ x ∈ steps, OnNamed x.1 x.2 := by
  intro steps
  have hsettled : Guarded Settled steps := by decide
  exact ⟨hsettled, onNamed_of_settled (vectorServer.run_schedule _ _) hsettled⟩

/-- `v1` and `v2` are stored, `set` has checked the index of `v1`, and `destroy` has moved `v2` to
it. -/
def movedV2 : List VectorMove :=
  [.spawn initV1, .run 0 allocating, .run 0 allocating, .run 0 allocating,
    .spawn initV2, .run 1 allocating, .run 1 allocating, .run 1 allocating,
    .spawn setV1, .run 2 allocating, .run 2 allocating,
    .spawn destroyV1, .run 3 allocating, .run 3 allocating]

/-- The `set` of `v1` then writes to `v2`. -/
theorem set_hits_other :
    ¬ ∀ (steps : List (VectorPool × VectorMove)) (p : VectorPool),
      Run vectorServer.Step initialPool steps p → ∀ x ∈ steps, OnNamed x.1 x.2 := by
  intro h
  have hrun := vectorServer.run_schedule initialPool (movedV2 ++ [.run 2 allocating])
  have hon := h _ _ hrun _ (vectorServer.mem_schedule_snoc initialPool movedV2 _)
  have hcalled : System.called (movedV2.foldl vectorServer.move initialPool)
      (.run (τ := Request) 2 allocating) = some (setV1, .store 0 0 7) := by decide
  have hanswer : (vectorServer.returned (movedV2.foldl vectorServer.move initialPool)
      (.run 2 allocating)).map Prod.snd = some (.ok ⟨0, none⟩) := by decide
  have hother : ∀ v ∈ (movedV2.foldl vectorServer.move initialPool).shared.stored,
      v.name ≠ setV1.name := by decide
  generalize movedV2.foldl vectorServer.move initialPool = p at *
  rcases (hon setV1 (.store 0 0 7) hcalled).set rfl with ⟨-, result, hr, hname, -⟩ | ⟨hnone, -⟩
  · exact hother _ (List.getElem_mem hr) hname
  · exact hnone none hanswer

end DistributedSystems.Exercise1
