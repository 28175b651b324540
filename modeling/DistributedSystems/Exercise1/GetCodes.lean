import DistributedSystems.Exercise1.ClientCalls
import DistributedSystems.Exercise1.FailedInit
import DistributedSystems.Exercise1.Names

/-!
# What `get` returns

`array.h` documents 0 for a `get` that succeeds and -1 for one that fails. The server answers with
the index of the vector in the storage array, and the client returns what the server answers. So a
`get` returns what is documented exactly when the vector is the first of the array, or the `get` is
to fail (`get_documented_iff`). The programs that test it ask for the first vector only.
-/

namespace DistributedSystems.Exercise1

open Support

/-! ## The names of a run -/

/-- The name fits in the `name` of a request. -/
def Request.Fits (r : Request) : Prop := r.name.length + 1 ≤ vectorName

/-- A move that starts no thread for a request which there is not. -/
def Fits (m : VectorMove) : Prop := ∀ r, m = .spawn r → r.Fits

/-- Vectors are appended with names that fit. -/
def AppendsFit (_ : Request) (a : Action) (_ : a.Answer → Selector) : Prop :=
  ∀ v, a = .append v → v.name.length + 1 ≤ vectorName

theorem always_mono {P Q : (a : Action) → (a.Answer → Selector) → Prop}
    (h : ∀ a next, P a next → Q a next) {program : Selector} (hP : program.Always P) :
    program.Always Q := by
  induction program with
  | done r => trivial
  | call a next ih => exact ⟨h a next hP.1, fun x => ih x (hP.2 x)⟩

theorem Request.Fits.always {r : Request} (h : r.Fits) :
    (functionSelector r).Always (AppendsFit r) := by
  refine always_mono (fun a next hends => ?_) (Ends.functionSelector r)
  rintro v rfl
  have hname : v.name = r.name := hends.2.1
  rw [hname]
  exact h

/-- The stored names fit, as those of the requests do. -/
theorem stored_fits {steps : List (VectorPool × VectorMove)} {p : VectorPool}
    (h : Run (vectorServer.StepIn Fits) initialPool steps p) :
    p.Always AppendsFit ∧
      ∃ l, Holds p.shared l ∧ ∀ v ∈ l, v.name.length + 1 ≤ vectorName := by
  induction h with
  | nil => exact ⟨fun _ ht => absurd ht List.not_mem_nil, [], holds_initialMemory, nofun⟩
  | @snoc steps p p' m _ hs ih =>
    obtain ⟨hfits, hs⟩ := hs
    obtain ⟨halways, l, hl, hnames⟩ := ih
    have hm := vectorServer.moved p m
    have halways' : (vectorServer.move p m).Always AppendsFit :=
      vectorServer.always_move p (fun r hr => (hfits r hr).always) halways
    rw [hs] at hm halways'
    refine ⟨halways', ?_⟩
    cases hm with
    | spawned r => exact ⟨l, hl, hnames⟩
    | idle i env => exact ⟨l, hl, hnames⟩
    | @called env before after r a next ht hc hr =>
      have happend : AppendsFit r a next := halways.call ht
      obtain ⟨l', hp, hl'⟩ := hl.performed env a
      refine ⟨l', hl', ?_⟩
      generalize (perform env a p.shared).1 = x at hp
      intro v hv
      cases hp with
      | appended w =>
        rcases List.mem_append.1 hv with hv | hv
        · exact hnames v hv
        · rw [List.mem_singleton.1 hv]
          exact happend w rfl
      | @stored result i value hlt =>
        rcases List.mem_or_eq_of_mem_set hv with hv | rfl
        · exact hnames v hv
        · have hfit := hnames l[result] (List.getElem_mem hlt)
          exact hfit
      | removed hr => exact hnames v (List.mem_of_mem_eraseIdx hv)
      | _ => exact hnames v hv

/-! ## One `get` -/

namespace Client

/-- The calls of an exchange none of which fails, when the server is at no other request: the
response waits where it is received. -/
def exchanged (allocator : Allocator) (m : Memory) :
    (a : QueueCall) → Option Response → a.Answer × Option Response
  | .openClient _, waiting => (some 0, waiting)
  | .openServer, waiting => (true, waiting)
  | .send req, _ => (true, (serve allocator req.request m).1.toOption)
  | .receive _, waiting => (waiting, none)
  | .closeServer, waiting => ((), waiting)
  | .closeClient _, waiting => ((), waiting)
  | .unlink _, waiting => (true, waiting)

/-- `get(name,i,&value)` of the process `pid`, in whose `req` is what it has been before. -/
def get (allocator : Allocator) (m : Memory) (pid : Nat) (req : Request) (name : Bytes) (i : Int) :
    Returned :=
  ((call pid req (.get name i)).run (exchanged allocator m) none).1

end Client

/-- What `array.h` says of `get`: it returns 0 and the element of a vector with that name which has
one at the index, and -1 without touching `*value` if there is none. -/
structure Documented (l : List Vector) (name : Bytes) (i : Int) (returned : Client.Returned) :
    Prop where
  success : ∀ v ∈ l, v.name = name → 0 ≤ i → ∀ x, v.elements[i.toNat]? = some x →
    returned = ⟨0, some x⟩
  failure : (∀ v ∈ l, v.name = name → 0 ≤ i → v.elements[i.toNat]? = none) →
    returned = ⟨-1, none⟩

/-- The first vector of the array has the name, and what all vectors of the name have at the
index. -/
def FirstNamed (l : List Vector) (name : Bytes) (i : Int) : Prop :=
  ∀ v ∈ l, v.name = name → 0 ≤ i → ∀ x, v.elements[i.toNat]? = some x →
    ∃ w, l[0]? = some w ∧ w.name = name ∧ w.elements[i.toNat]? = some x

section Get

variable {allocator : Allocator} {m : Memory} {l : List Vector} {pid : Nat} {req : Request}
  {name : Bytes} {i : Int}

/-- The answer of the server. -/
theorem Holds.serve_get (h : Holds m l) (hop : req.operation = 2) (h0 : 0 ≤ req.arg1) :
    (serve allocator req m).1 =
      match l.findIdx? fun v => v.name = req.name with
      | none => .ok ⟨-1, none⟩
      | some result =>
        match l[result]?.bind fun v => v.elements[req.arg1.toNat]? with
        | none => .ok ⟨-1, none⟩
        | some x => .ok ⟨result, some x⟩ := by
  have hserve : serve allocator req m =
      (req.getFound (l.findIdx? fun v => v.name = req.name)).run (perform allocator) m := by
    unfold serve
    rw [functionSelector_get hop]
    unfold Request.get
    rw [run_ask (h.perform_findVector allocator req.name)]
  rw [hserve]
  cases hfind : l.findIdx? fun v => v.name = req.name with
  | none => rfl
  | some result =>
    obtain ⟨hr, -⟩ := findIdx?_key_eq_some hfind
    dsimp only
    rw [List.getElem?_eq_getElem hr, Option.bind_some]
    unfold Request.getFound
    rw [run_ask (h.perform_sizeAt allocator hr)]
    unfold Request.getSized
    by_cases hi : l[result].size - 1 < req.arg1
    · have hlen : l[result].elements.length ≤ req.arg1.toNat := by
        have hle := size_check.1 hi
        omega
      rw [if_pos hi, List.getElem?_eq_none hlen]
      rfl
    · have hlen : req.arg1.toNat < l[result].elements.length := by
        have hlt := mt size_check.2 hi
        omega
      rw [if_neg hi, run_ask (h.perform_load allocator hr h0 hlen), List.getElem?_eq_getElem hlen]
      rfl

namespace Client

/-- A `get` with arguments that are refused. -/
theorem get_refused (h : name.length + 1 > vectorName ∨ i < 0) :
    get allocator m pid req name i = ⟨-1, none⟩ := by
  have hrequest : (Service.get name i).request req = none := if_pos h
  unfold get call
  rw [hrequest]
  rfl

/-- What `get` makes of the answer of the server. -/
theorem get_sent (h : ¬ (name.length + 1 > vectorName ∨ i < 0)) {response : Response}
    (hserve : (serve allocator { req with operation := 2, name := name, arg1 := i } m).1 =
      .ok response) :
    get allocator m pid req name i = finish (.get name i) response := by
  have hrequest : (Service.get name i).request req =
      some { req with operation := 2, name := name, arg1 := i } := if_neg h
  unfold get call
  rw [hrequest]
  change ((received _ 0 (finish (.get name i)) (serve allocator _ m).1.toOption).run
    (exchanged allocator m) none).1 = _
  rw [hserve]
  rfl

/-- The index that the server answers with is what `get` returns. -/
theorem get_eq (h : Holds m l) (hfits : name.length + 1 ≤ vectorName) (h0 : 0 ≤ i) :
    get allocator m pid req name i =
      match l.findIdx? fun v => v.name = name with
      | none => ⟨-1, none⟩
      | some result =>
        match l[result]?.bind fun v => v.elements[i.toNat]? with
        | none => ⟨-1, none⟩
        | some x => ⟨result, some x⟩ := by
  have hrefused : ¬ (name.length + 1 > vectorName ∨ i < 0) := by omega
  have hserve := @Holds.serve_get allocator m l
    { req with operation := 2, name := name, arg1 := i } h rfl h0
  dsimp only at hserve
  cases hfind : l.findIdx? fun v => v.name = name with
  | none =>
    rw [hfind] at hserve
    exact get_sent hrefused hserve
  | some result =>
    rw [hfind] at hserve
    dsimp only at hserve ⊢
    cases hx : l[result]?.bind fun v => v.elements[i.toNat]? with
    | none =>
      rw [hx] at hserve
      exact get_sent hrefused hserve
    | some x =>
      rw [hx] at hserve
      rw [get_sent hrefused hserve]
      have houtput : (result : Int) ≠ -1 := by omega
      dsimp only [finish]
      rw [if_pos houtput]

end Client

/-- `get` on a storage that holds vectors. -/
theorem Holds.documented_iff (h : Holds m l) (hfits : ∀ v ∈ l, v.name.length + 1 ≤ vectorName) :
    Documented l name i (Client.get allocator m pid req name i) ↔ FirstNamed l name i := by
  constructor
  · intro hdoc v hv hname h0 x hx
    have hsuccess := hdoc.success v hv hname h0 x hx
    rw [Client.get_eq h (hname ▸ hfits v hv) h0] at hsuccess
    cases hfind : l.findIdx? fun v => v.name = name with
    | none =>
      rw [hfind] at hsuccess
      cases hsuccess
    | some result =>
      rw [hfind] at hsuccess
      dsimp only at hsuccess
      split at hsuccess
      · cases hsuccess
      · rename_i y hy
        obtain ⟨houtput, hvalue⟩ := Client.Returned.mk.inj hsuccess
        obtain rfl : result = 0 := Int.ofNat_eq_zero.1 houtput
        obtain ⟨hlen, hfirst⟩ := findIdx?_key_eq_some hfind
        rw [List.getElem?_eq_getElem hlen, Option.bind_some] at hy
        exact ⟨l[0], List.getElem?_eq_getElem hlen, hfirst, hy.trans hvalue⟩
  · intro hfirst
    constructor
    · intro v hv hname h0 x hx
      obtain ⟨w, hw, hwname, hwx⟩ := hfirst v hv hname h0 x hx
      have hfind : l.findIdx? (fun v => v.name = name) = some 0 := by
        obtain ⟨l', rfl⟩ := List.head?_eq_some_iff.1 (List.head?_eq_getElem? ▸ hw)
        rw [List.findIdx?_cons, if_pos (decide_eq_true hwname)]
      rw [Client.get_eq h (hname ▸ hfits v hv) h0, hfind]
      dsimp only
      rw [hw, Option.bind_some, hwx]
      rfl
    · intro hnone
      by_cases hrefused : name.length + 1 > vectorName ∨ i < 0
      · exact Client.get_refused hrefused
      · rw [Client.get_eq h (by omega) (by omega)]
        cases hfind : l.findIdx? fun v => v.name = name with
        | none => rfl
        | some result =>
          obtain ⟨hlen, hname⟩ := findIdx?_key_eq_some hfind
          dsimp only
          rw [List.getElem?_eq_getElem hlen, Option.bind_some,
            hnone _ (List.getElem_mem hlen) hname (by omega)]

end Get

/-- **A `get` returns what is documented** exactly when the vector is the first of the storage array
or the `get` is to fail, in every storage that a run reaches. -/
theorem get_documented_iff {steps : List (VectorPool × VectorMove)} {p : VectorPool}
    (h : Run (vectorServer.StepIn Fits) initialPool steps p) (allocator : Allocator) (pid : Nat)
    (req : Request) (name : Bytes) (i : Int) :
    Documented p.shared.stored name i (Client.get allocator p.shared pid req name i) ↔
      FirstNamed p.shared.stored name i := by
  obtain ⟨-, l, hl, hfits⟩ := stored_fits h
  rw [hl.stored_eq]
  exact hl.documented_iff hfits

theorem storedV1V2_fit : ∀ m ∈ storedV1V2, Fits m := by
  intro m hm r hr
  subst hr
  have hmem : r = initV1 ∨ r = initV2 := by
    simp only [storedV1V2, List.mem_cons, List.not_mem_nil, or_false, Move.spawn.injEq,
      reduceCtorEq, false_or] at hm
    exact hm
  rcases hmem with rfl | rfl
  · exact Nat.le_of_ble_eq_true rfl
  · exact Nat.le_of_ble_eq_true rfl

theorem stored_storedV1V2 : (storedV1V2.foldl vectorServer.move initialPool).shared.stored =
    [⟨[118, 49], 1, [0], rfl⟩, ⟨[118, 50], 1, [0], rfl⟩] := rfl

/-- The first of two vectors. -/
theorem v1_documented :
    let p := storedV1V2.foldl vectorServer.move initialPool
    Documented p.shared.stored [118, 49] 0
      (Client.get allocating p.shared 42 initV1 [118, 49] 0) := by
  have hrun := vectorServer.run_schedule_in initialPool storedV1V2 storedV1V2_fit
  refine (get_documented_iff hrun allocating 42 initV1 _ 0).2 ?_
  rw [stored_storedV1V2]
  intro v hv hname _ x hx
  rcases List.mem_cons.1 hv with rfl | hv
  · exact ⟨_, rfl, hname, hx⟩
  · rw [List.mem_singleton.1 hv] at hname
    exact absurd hname (by decide)

/-- The second of two vectors: `get` returns 1. -/
theorem v2_not_documented :
    ¬ ∀ (steps : List (VectorPool × VectorMove)) (p : VectorPool),
      Run (vectorServer.StepIn Fits) initialPool steps p →
        ∀ (allocator : Allocator) (pid : Nat) (req : Request) (name : Bytes) (i : Int),
          Documented p.shared.stored name i (Client.get allocator p.shared pid req name i) := by
  intro h
  have hrun := vectorServer.run_schedule_in initialPool storedV1V2 storedV1V2_fit
  have hsuccess := (h _ _ hrun allocating 42 initV1 [118, 50] 0).success
    ⟨[118, 50], 1, [0], rfl⟩ (by rw [stored_storedV1V2]; simp) rfl (by decide) 0 rfl
  have hreturned : Client.get allocating (storedV1V2.foldl vectorServer.move initialPool).shared 42
      initV1 [118, 50] 0 = ⟨1, some 0⟩ := by decide
  rw [hreturned] at hsuccess
  cases hsuccess

end DistributedSystems.Exercise1
