import DistributedSystems.Exercise1.Storage
import DistributedSystems.Support.Keyed

/-!
# The vector server as a map

A client calls the services of `array.c`, which refuse some arguments themselves and send a request
for the others. `Served` is what a service does on a finite map from names to vectors, and answers,
as `array.h` has it but for the answer of a `get`. The storage array represents such a map in every
state that the requests of clients lead to, and the next request does with it what is promised
(`storage_refines_map`).
-/

namespace DistributedSystems.Exercise1

open Support

/-- A call of `array.h`. -/
inductive Service
  | init (name : Bytes) (n : Int)
  | set (name : Bytes) (i value : Int)
  | get (name : Bytes) (i : Int)
  | destroy (name : Bytes)
deriving DecidableEq, Repr

abbrev vectorName : Nat := 100

/-- The request that is sent, unless the arguments are refused. `req` is the variable of the caller,
in which the fields that the service does not set keep what they had. -/
def Service.request (req : Request) : Service → Option Request
  | init name n =>
    if name.length + 1 > vectorName ∨ n < 0 then none
    else some { req with operation := 0, name := name, arg1 := n }
  | set name i value =>
    if name.length + 1 > vectorName ∨ i < 0 then none
    else some { operation := 1, name := name, arg1 := i, arg2 := value }
  | get name i =>
    if name.length + 1 > vectorName ∨ i < 0 then none
    else some { req with operation := 2, name := name, arg1 := i }
  | destroy name =>
    if name.length + 1 > vectorName then none
    else some { req with operation := 3, name := name }

/-! ## The map -/

abbrev VectorMap := Bytes → Option (List Int)

/-- What the services promise. A `get` that succeeds may answer anything but -1: `array.h` says 0,
and the server answers the index of the vector. -/
inductive Served (M : VectorMap) : Service → Response → VectorMap → Prop
  | created {name : Bytes} {n : Int} (h : M name = none) :
      Served M (.init name n) ⟨1, none⟩
        (Function.update M name (some (List.replicate n.toNat 0)))
  | sameSize {name : Bytes} {v : List Int} (h : M name = some v) :
      Served M (.init name v.length) ⟨0, none⟩ M
  | otherSize {name : Bytes} {n : Int} {v : List Int} (h : M name = some v) (hn : v.length ≠ n) :
      Served M (.init name n) ⟨-1, none⟩ M
  | stored {name : Bytes} {i value : Int} {v : List Int} (h : M name = some v)
      (hi : i < v.length) :
      Served M (.set name i value) ⟨0, none⟩
        (Function.update M name (some (v.set i.toNat value)))
  | notStored {name : Bytes} {i value : Int} (h : ∀ v, M name = some v → v.length ≤ i) :
      Served M (.set name i value) ⟨-1, none⟩ M
  | loaded {name : Bytes} {i x output : Int} {v : List Int} (h : M name = some v)
      (hi : i < v.length) (hx : v[i.toNat]? = some x) (ho : output ≠ -1) :
      Served M (.get name i) ⟨output, some x⟩ M
  | notLoaded {name : Bytes} {i : Int} (h : ∀ v, M name = some v → v.length ≤ i) :
      Served M (.get name i) ⟨-1, none⟩ M
  | destroyed {name : Bytes} {v : List Int} (h : M name = some v) :
      Served M (.destroy name) ⟨1, none⟩ (Function.update M name none)
  | notDestroyed {name : Bytes} (h : M name = none) : Served M (.destroy name) ⟨-1, none⟩ M

/-- The map that a list of vectors stands for. -/
def vectorMap (l : List Vector) : VectorMap :=
  Option.map Vector.elements ∘ lookup Vector.name l

section Lookup

variable {l : List Vector} {name : Bytes} {result : Nat}

theorem vectorMap_of_findIdx?_none (h : l.findIdx? (fun v => v.name = name) = none) :
    vectorMap l name = none := by
  unfold vectorMap
  rw [Function.comp_apply, findIdx?_key_eq_none h, Option.map_none]

theorem vectorMap_of_findIdx?_some (hd : Distinct Vector.name l)
    (h : l.findIdx? (fun v => v.name = name) = some result) :
    ∃ hr : result < l.length, l[result].name = name ∧
      vectorMap l name = some l[result].elements := by
  obtain ⟨hr, rfl⟩ := findIdx?_key_eq_some h
  refine ⟨hr, rfl, ?_⟩
  unfold vectorMap
  rw [Function.comp_apply, lookup_getElem hd hr, Option.map_some]

end Lookup

theorem vectorMap_append {l : List Vector} {v : Vector} (h : vectorMap l v.name = none) :
    vectorMap (l ++ [v]) = Function.update (vectorMap l) v.name (some v.elements) := by
  have hnew : lookup Vector.name l v.name = none := by
    unfold vectorMap at h
    rwa [Function.comp_apply, Option.map_eq_none_iff] at h
  unfold vectorMap
  rw [lookup_append_new hnew, Function.comp_update]
  rfl

theorem vectorMap_set {l : List Vector} {result : Nat} {v : Vector}
    (hd : Distinct Vector.name l) (hr : result < l.length) (hv : v.name = l[result].name) :
    vectorMap (l.set result v) =
      Function.update (vectorMap l) l[result].name (some v.elements) := by
  unfold vectorMap
  rw [lookup_set hd hr hv, Function.comp_update]
  rfl

theorem vectorMap_eraseIdx {l : List Vector} {result : Nat} (hd : Distinct Vector.name l)
    (hr : result < l.length) :
    vectorMap (l.eraseIdx result) = Function.update (vectorMap l) l[result].name none := by
  unfold vectorMap
  rw [lookup_eraseIdx hd hr, Function.comp_update]
  rfl

/-- The storage array represents the map: its vectors have distinct names and make up the map, there
are as many slots as `capacity` says and no more vectors, and the mutex is free. -/
def Represents (m : Memory) (M : VectorMap) : Prop :=
  ∃ l, Holds m l ∧ Distinct Vector.name l ∧ m.storage.size ≤ m.storage.capacity ∧
    m.locked = false ∧ vectorMap l = M

/-! ## The operations, one at a time -/

theorem run_ask {allocator : Allocator} {a : Action} {m m' : Memory} {x : a.Result}
    {next : a.Result → Selector} (h : perform allocator a m = (.ok x, m')) :
    (ask a next).run (perform allocator) m = (next x).run (perform allocator) m' := by
  unfold ask
  rw [Program.run, h]

/-- The operation ends with a response, and with a storage that represents the map as promised. -/
def Meets (m : Memory) (M : VectorMap) (operation : Selector) (service : Service) : Prop :=
  ∃ response m' M', operation.run (perform allocating) m = (.ok response, m') ∧ Represents m' M' ∧
    Served M service response M'

/-- A call of the operation that changes nothing. -/
theorem Meets.ask {m : Memory} {M : VectorMap} {a : Action} {x : a.Result}
    {next : a.Result → Selector} {service : Service}
    (hcall : perform allocating a m = (.ok x, m)) (h : Meets m M (next x) service) :
    Meets m M (ask a next) service := by
  unfold Meets
  rw [run_ask hcall]
  exact h

/-- The bound that `set` and `get` check. -/
theorem size_check {v : Vector} {i : Int} : v.size - 1 < i ↔ (v.elements.length : Int) ≤ i := by
  rw [v.size_eq]
  omega

theorem perform_calloc (m : Memory) {n : Int} (hn : 0 ≤ n) :
    ∃ block : Block n, perform allocating (.calloc n) m = (.ok (some block), m) ∧
      block.1 = List.replicate n.toNat 0 := by
  refine ⟨⟨List.replicate n.toNat 0, by rw [List.length_replicate, Int.toNat_of_nonneg hn]⟩, ?_,
    rfl⟩
  simp only [perform, callocBlock, allocating, hn, and_self, dite_true]

section Operations

variable {m : Memory} {l : List Vector} {req : Request} {result : Nat} {i : Int}
  (h : Holds m l) (hd : Distinct Vector.name l) (hfree : m.locked = false)
include h

theorem Holds.represents (hd : Distinct Vector.name l) (hfree : m.locked = false) :
    Represents m (vectorMap l) :=
  ⟨l, h, hd, h.size_le_capacity hfree, hfree, rfl⟩

include hfree

theorem perform_append (hfew : m.storage.size < 2 ^ 30) (v : Vector) :
    ∃ s, perform allocating (.append v) m = (.ok true, ⟨s, false⟩) ∧
      Holds ⟨s, false⟩ (l ++ [v]) := by
  obtain ⟨s, happ, hs⟩ := h.append hfree true v fun hfull => ⟨rfl, by omega⟩
  refine ⟨s, ?_, hs⟩
  simp only [perform, Memory.underMutex, hfree, allocating, happ]
  rfl

theorem perform_store (value : Int) (hr : result < l.length) (h0 : 0 ≤ i)
    (hi : i.toNat < l[result].elements.length) :
    ∃ s, perform allocating (.store result i value) m = (.ok (), ⟨s, false⟩) ∧
      Holds ⟨s, false⟩ (l.set result (l[result].setElement i value)) := by
  obtain ⟨s, hstore, hs⟩ := h.store hfree value hr h0 hi
  refine ⟨s, ?_, hs⟩
  simp only [perform, Memory.underMutex, hfree, hstore]
  rfl

theorem perform_remove (hr : result < l.length) :
    ∃ s, perform allocating (.remove result) m = (.ok (), ⟨s, false⟩) ∧
      Holds ⟨s, false⟩ (l.eraseIdx result) := by
  obtain ⟨s, hremove, hs⟩ := h.remove hfree hr
  refine ⟨s, ?_, hs⟩
  simp only [perform, Memory.underMutex, hfree, hremove]
  rfl

include hd

/-- An answer that changes nothing. -/
theorem meets_answer {output : Int} {service : Service}
    (hserved : Served (vectorMap l) service ⟨output, none⟩ (vectorMap l)) :
    Meets m (vectorMap l) (answer output) service :=
  ⟨⟨output, none⟩, m, vectorMap l, rfl, h.represents hd hfree, hserved⟩

theorem meets_init (hfew : m.storage.size < 2 ^ 30) (hn : 0 ≤ req.arg1) :
    Meets m (vectorMap l) req.init (.init req.name req.arg1) := by
  apply Meets.ask (h.perform_findVector allocating req.name)
  cases hfind : l.findIdx? fun v => v.name = req.name with
  | none =>
    have hnone : vectorMap l req.name = none := vectorMap_of_findIdx?_none hfind
    obtain ⟨block, hcalloc, hblock⟩ := perform_calloc m hn
    obtain ⟨s, happ, hs⟩ := perform_append h hfree hfew ⟨req.name, req.arg1, block.1, block.2⟩
    apply Meets.ask hcalloc
    refine ⟨⟨1, none⟩, ⟨s, false⟩, _, by unfold Request.initAllocated; rw [run_ask happ]; rfl,
      hs.represents (hd.append (findIdx?_key_eq_none hfind)) rfl, ?_⟩
    have hserved : Served (vectorMap l) (.init req.name req.arg1) ⟨1, none⟩ _ := .created hnone
    rw [← hblock] at hserved
    rw [vectorMap_append hnone]
    exact hserved
  | some result =>
    obtain ⟨hr, hname, hmap⟩ := vectorMap_of_findIdx?_some hd hfind
    apply Meets.ask (h.perform_sizeAt allocating hr)
    unfold Request.initSized
    by_cases hsize : l[result].size = req.arg1
    · rw [if_pos hsize]
      apply meets_answer h hd hfree
      rw [← hsize, l[result].size_eq]
      exact .sameSize hmap
    · rw [if_neg hsize]
      apply meets_answer h hd hfree
      exact .otherSize hmap (by rwa [← l[result].size_eq])

/-- `set` and `get` alike look the vector up, and check the index before they go `inside`. -/
theorem meets_indexed {service : Service} {found : Option Nat → Selector}
    (sized : Nat → Int → Selector) (inside : Nat → Selector) (hnone : found none = answer (-1))
    (hsome : ∀ result, found (some result) = ask (.sizeAt result) (sized result))
    (hsized : ∀ result size, sized result size =
      if size - 1 < req.arg1 then answer (-1) else inside result)
    (hrefused : (∀ v, vectorMap l req.name = some v → v.length ≤ req.arg1) →
      Served (vectorMap l) service ⟨-1, none⟩ (vectorMap l))
    (hinside : ∀ (result : Nat) (hr : result < l.length), l[result].name = req.name →
      vectorMap l req.name = some l[result].elements → req.arg1 < l[result].elements.length →
        Meets m (vectorMap l) (inside result) service) :
    Meets m (vectorMap l) (ask (.findVector req.name) found) service := by
  apply Meets.ask (h.perform_findVector allocating req.name)
  cases hfind : l.findIdx? fun v => v.name = req.name with
  | none =>
    rw [hnone]
    apply meets_answer h hd hfree
    apply hrefused
    intro v hv
    rw [vectorMap_of_findIdx?_none hfind] at hv
    cases hv
  | some result =>
    obtain ⟨hr, hname, hmap⟩ := vectorMap_of_findIdx?_some hd hfind
    rw [hsome]
    apply Meets.ask (h.perform_sizeAt allocating hr)
    rw [hsized]
    by_cases hi : l[result].size - 1 < req.arg1
    · rw [if_pos hi]
      apply meets_answer h hd hfree
      apply hrefused
      intro v hv
      rw [hmap] at hv
      cases hv
      exact size_check.1 hi
    · rw [if_neg hi]
      exact hinside result hr hname hmap (Int.not_le.1 (mt size_check.2 hi))

theorem meets_set (h0 : 0 ≤ req.arg1) :
    Meets m (vectorMap l) req.set (.set req.name req.arg1 req.arg2) := by
  unfold Request.set
  apply meets_indexed h hd hfree req.setSized
    (fun result => ask (.store result req.arg1 req.arg2) fun _ => answer 0) rfl (fun _ => rfl)
    (fun _ _ => rfl) .notStored
  intro result hr hname hmap hlt
  obtain ⟨s, hstore, hs⟩ := perform_store h hfree req.arg2 hr h0 (by omega)
  refine ⟨⟨0, none⟩, ⟨s, false⟩, _, by rw [run_ask hstore]; rfl,
    hs.represents (hd.set hr rfl) rfl, ?_⟩
  have hmap' := vectorMap_set hd hr (v := l[result].setElement req.arg1 req.arg2) rfl
  rw [hmap', hname]
  exact .stored hmap hlt

theorem meets_get (h0 : 0 ≤ req.arg1) :
    Meets m (vectorMap l) req.get (.get req.name req.arg1) := by
  unfold Request.get
  apply meets_indexed h hd hfree req.getSized
    (fun result => ask (.load result req.arg1) fun data => .done (.ok ⟨result, some data⟩)) rfl
    (fun _ => rfl) (fun _ _ => rfl) .notLoaded
  intro result hr hname hmap hlt
  have hnat : req.arg1.toNat < l[result].elements.length := by omega
  apply Meets.ask (h.perform_load allocating hr h0 hnat)
  exact ⟨⟨result, some l[result].elements[req.arg1.toNat]⟩, m, _, rfl,
    h.represents hd hfree, .loaded hmap hlt (List.getElem?_eq_getElem hnat) (by omega)⟩

theorem meets_destroy : Meets m (vectorMap l) req.destroy (.destroy req.name) := by
  apply Meets.ask (h.perform_findVector allocating req.name)
  cases hfind : l.findIdx? fun v => v.name = req.name with
  | none =>
    apply meets_answer h hd hfree
    exact .notDestroyed (vectorMap_of_findIdx?_none hfind)
  | some result =>
    obtain ⟨hr, hname, hmap⟩ := vectorMap_of_findIdx?_some hd hfind
    obtain ⟨s, hremove, hs⟩ := perform_remove h hfree hr
    refine ⟨⟨1, none⟩, ⟨s, false⟩, _, by unfold Request.destroyFound; rw [run_ask hremove]; rfl,
      hs.represents (hd.eraseIdx result) rfl, ?_⟩
    rw [vectorMap_eraseIdx hd hr, hname]
    exact .destroyed hmap

end Operations

/-- A request of a client is served as promised, with no access out of range. -/
theorem Represents.meets {m : Memory} {M : VectorMap} (h : Represents m M) {service : Service}
    {req request : Request} (hreq : service.request req = some request)
    (hfew : m.storage.size < 2 ^ 30) : Meets m M (functionSelector request) service := by
  obtain ⟨l, h, hd, -, hfree, rfl⟩ := h
  cases service with
  | init name n =>
    obtain ⟨hok, ⟨⟩⟩ := Option.ite_none_left_eq_some.1 hreq
    exact meets_init h hd hfree hfew (by simp only; omega)
  | set name i value =>
    obtain ⟨hok, ⟨⟩⟩ := Option.ite_none_left_eq_some.1 hreq
    exact meets_set h hd hfree (by simp only; omega)
  | get name i =>
    obtain ⟨hok, ⟨⟩⟩ := Option.ite_none_left_eq_some.1 hreq
    exact meets_get h hd hfree (by simp only; omega)
  | destroy name =>
    obtain ⟨-, ⟨⟩⟩ := Option.ite_none_left_eq_some.1 hreq
    exact meets_destroy h hd hfree

/-- The storage array represents no other map. -/
theorem Represents.unique {m : Memory} {M N : VectorMap} (hM : Represents m M)
    (hN : Represents m N) : M = N := by
  obtain ⟨l, hl, -, -, -, rfl⟩ := hM
  obtain ⟨l', hl', -, -, -, rfl⟩ := hN
  have hlen : l.length = l'.length := hl.size_eq.symm.trans hl'.size_eq
  have heq : l.map some = l'.map some :=
    (List.prefix_of_prefix_length_le hl.fills hl'.fills (by simp [hlen])).eq_of_length
      (by simp [hlen])
  rw [List.map_injective_iff.2 (fun _ _ h => Option.some.inj h) heq]

/-! ## Runs -/

/-- A client calls a service, whose request is served before the next one. -/
def Serves (m : Memory) (service : Service) (m' : Memory) : Prop :=
  ∃ req request, service.request req = some request ∧ (serve allocating request m).2 = m'

/-- **The vector store refines a finite map.** With fewer than `2^30` vectors all along, the array
represents one map after any requests of clients, and the next one is served as promised. -/
theorem storage_refines_map {steps : List (Memory × Service)} {m : Memory}
    (h : Run Serves initialMemory steps m) (hfew : ∀ x ∈ steps, x.1.storage.size < 2 ^ 30) :
    (∃! M, Represents m M) ∧
      ∀ M, Represents m M → m.storage.size < 2 ^ 30 → ∀ service req request,
        service.request req = some request →
          ∃ response m' M', serve allocating request m = (.ok response, m') ∧
            Represents m' M' ∧ Served M service response M' := by
  have hG : Guarded (fun m _ => m.storage.size < 2 ^ 30) steps := hfew
  have hrep : ∃ M, Represents m M := by
    refine h.invariant_of_guard (I := fun m => ∃ M, Represents m M) ?_ ?_ hG
    · exact ⟨_, holds_initialMemory.represents .nil rfl⟩
    · intro m service m' hM hlt hs
      obtain ⟨M, hM⟩ := hM
      obtain ⟨req, request, hreq, rfl⟩ := hs
      obtain ⟨response, m', M', hserve, hM', -⟩ := hM.meets hreq hlt
      rw [serve, hserve]
      exact ⟨M', hM'⟩
  obtain ⟨M, hM⟩ := hrep
  refine ⟨⟨M, hM, fun N hN => hN.unique hM⟩, fun M hM hlt service req request hreq => ?_⟩
  exact hM.meets hreq hlt

/-- Three vectors, for which the array has grown, and the one in the middle destroyed. -/
theorem grown_refines_map :
    let m₁ := (serve allocating ⟨0, [118, 49], 2, 0⟩ initialMemory).2
    let m₂ := (serve allocating ⟨0, [118, 50], 1, 0⟩ m₁).2
    let m₃ := (serve allocating ⟨0, [118, 51], 1, 0⟩ m₂).2
    let m := (serve allocating ⟨3, [118, 50], 0, 0⟩ m₃).2
    (∃! M, Represents m M) ∧
      ∀ M, Represents m M → m.storage.size < 2 ^ 30 → ∀ service req request,
        service.request req = some request →
          ∃ response m' M', serve allocating request m = (.ok response, m') ∧
            Represents m' M' ∧ Served M service response M' := by
  intro m₁ m₂ m₃ m
  have h₁ : Serves initialMemory (.init [118, 49] 2) m₁ := ⟨⟨0, [], 0, 0⟩, _, rfl, rfl⟩
  have h₂ : Serves m₁ (.init [118, 50] 1) m₂ := ⟨⟨0, [], 0, 0⟩, _, rfl, rfl⟩
  have h₃ : Serves m₂ (.init [118, 51] 1) m₃ := ⟨⟨0, [], 0, 0⟩, _, rfl, rfl⟩
  have h : Serves m₃ (.destroy [118, 50]) m := ⟨⟨0, [], 0, 0⟩, _, rfl, rfl⟩
  exact storage_refines_map ((((Run.nil.snoc h₁).snoc h₂).snoc h₃).snoc h) (by decide)

end DistributedSystems.Exercise1
