import DistributedSystems.Exercise1.Names
import DistributedSystems.Exercise1.VectorMap
import DistributedSystems.Support.Atomicity

/-!
# Concurrent requests as a map

While removals and appends come at moments at which no other thread relies on what they change, any
number of threads serve a finite map, if there is memory for what they allocate: every request takes
effect at its last call, and the responses are those that `Served` promises when the requests are
served one after the other in the order in which they end (`vectorServer_linearizable`).
-/

namespace DistributedSystems.Exercise1

open Support

/-- The request of a service that a client calls. -/
def FromClient (r : Request) : Prop := ∃ (service : Service) (req : Request),
  service.request req = some r

/-- A client's request is started, or a thread takes a call with memory for it. -/
def Offered : VectorMove → Prop
  | .spawn r => FromClient r
  | .run _ allocator => allocator = allocating

/-- The appends and the removals come at moments at which no other thread relies on what they
change, and there are not too many vectors. -/
def Apart (p : VectorPool) (m : VectorMove) : Prop :=
  Settled p m ∧ Undisturbed p m ∧ p.shared.storage.size < 2 ^ 30

instance (p : VectorPool) (m : VectorMove) : Decidable (Apart p m) :=
  inferInstanceAs (Decidable (_ ∧ _ ∧ _))

/-- Services of a map that is empty at first, one after the other, with these responses. -/
inductive MapHistory : List (Request × Except Fault Response) → VectorMap → Prop
  | nil : MapHistory [] fun _ => none
  | snoc {history : List (Request × Except Fault Response)} {M M' : VectorMap} {service : Service}
      {req r : Request} {response : Response} :
      MapHistory history M → service.request req = some r → Served M service response M' →
        MapHistory (history ++ [(r, .ok response)]) M'

theorem FromClient.operation {r : Request} (h : FromClient r) :
    (r.operation = 0 → 0 ≤ r.arg1) ∧ (r.operation = 1 ∨ r.operation = 2 → 0 ≤ r.arg1) := by
  obtain ⟨service, req, h⟩ := h
  cases service with
  | init name n =>
    obtain ⟨hok, ⟨⟩⟩ := Option.ite_none_left_eq_some.1 h
    simp only at hok ⊢
    omega
  | set name i value =>
    obtain ⟨hok, ⟨⟩⟩ := Option.ite_none_left_eq_some.1 h
    simp only at hok ⊢
    omega
  | get name i =>
    obtain ⟨hok, ⟨⟩⟩ := Option.ite_none_left_eq_some.1 h
    simp only at hok ⊢
    omega
  | destroy name =>
    obtain ⟨-, ⟨⟩⟩ := Option.ite_none_left_eq_some.1 h
    simp only
    omega

/-! ## What an `init` is about to append -/

/-- A vector that is about to be appended is a new one for the request. -/
def Fresh (r : Request) (rest : Selector) : Prop :=
  ∀ v, rest.action? = some (.append v) → ∃ block, callocBlock true r.arg1 = some block ∧
    rest = r.initAllocated (some block)

theorem Fresh.of_ne {r : Request} {rest : Selector}
    (h : ∀ v, rest.action? ≠ some (.append v)) : Fresh r rest := fun v hv => absurd hv (h v)

section Threads

variable {m : Memory} {l : List Vector} {r : Request} {rest : Selector} {a : Action}
  {next : a.Answer → Selector} {result : Nat}

/-- What follows a call whose answer is a fault or leads to no append. -/
theorem Fresh.after (a : Action) (k : a.Result → Selector) (h : ∀ y, Fresh r (k y))
    (x : a.Answer) :
    Fresh r (match x with
      | .error fault => .done (.error fault)
      | .ok y => k y) := by
  cases x with
  | error fault => exact .of_ne fun _ h => nomatch h
  | ok y => exact h y

theorem Fresh.ask_of_ne {a : Action} {next : a.Result → Selector} (h : ∀ v, a ≠ .append v) :
    Fresh r (ask a next) := .of_ne fun v hv => h v (Option.some.inj hv)

theorem Fresh.answer (output : Int) : Fresh r (answer output) := .of_ne fun _ h => nomatch h

theorem fresh_functionSelector (r : Request) : Fresh r (functionSelector r) := by
  unfold functionSelector
  split_ifs with h0 h1 h2 h3
  · exact .ask_of_ne fun _ h => nomatch h
  · exact .ask_of_ne fun _ h => nomatch h
  · exact .ask_of_ne fun _ h => nomatch h
  · exact .ask_of_ne fun _ h => nomatch h
  · exact .answer _

/-- The next call of a thread, and what it leads to. -/
theorem Stage.fresh (h : Stage l r (.call a next)) :
    Fresh r (next (perform allocating a m).1) := by
  cases h with
  | initFind hop =>
    refine Fresh.after (.findVector r.name) r.initFound (fun found => ?_) _
    cases found with
    | none => exact .ask_of_ne fun _ h => nomatch h
    | some result => exact .ask_of_ne fun _ h => nomatch h
  | initSize hop h =>
    refine Fresh.after (.sizeAt _) r.initSized (fun size => ?_) _
    unfold Request.initSized
    split
    · exact .answer _
    · exact .answer _
  | initCalloc hop =>
    change Fresh r (r.initAllocated (callocBlock true r.arg1))
    cases hblock : callocBlock true r.arg1 with
    | none => exact .answer _
    | some block => exact fun v hv => ⟨block, hblock, rfl⟩
  | initAppend hop =>
    refine Fresh.after (.append _) Request.initAppended (fun appended => ?_) _
    unfold Request.initAppended
    split
    · exact .answer _
    · exact .answer _
  | setFind hop h0 =>
    refine Fresh.after (.findVector r.name) r.setFound (fun found => ?_) _
    cases found with
    | none => exact .answer _
    | some result => exact .ask_of_ne fun _ h => nomatch h
  | @setSize result hop h0 h =>
    refine Fresh.after (.sizeAt result) (r.setSized result) (fun size => ?_) _
    unfold Request.setSized
    split
    · exact .answer _
    · exact .ask_of_ne fun _ h => nomatch h
  | @setStore result hop h =>
    exact Fresh.after (.store result r.arg1 r.arg2) _ (fun _ => .answer 0) _
  | getFind hop h0 =>
    refine Fresh.after (.findVector r.name) r.getFound (fun found => ?_) _
    cases found with
    | none => exact .answer _
    | some result => exact .ask_of_ne fun _ h => nomatch h
  | @getSize result hop h0 h =>
    refine Fresh.after (.sizeAt result) (r.getSized result) (fun size => ?_) _
    unfold Request.getSized
    split
    · exact .answer _
    · exact .ask_of_ne fun _ h => nomatch h
  | @getLoad result hop h =>
    exact Fresh.after (.load result r.arg1) (fun data => .done (.ok ⟨result, some data⟩))
      (fun _ => .of_ne fun _ h => nomatch h) _
  | destroyFind hop =>
    refine Fresh.after (.findVector r.name) Request.destroyFound (fun found => ?_) _
    cases found with
    | none => exact .answer _
    | some result => exact .ask_of_ne fun _ h => nomatch h
  | @destroyRemove result hop h =>
    exact Fresh.after (.remove result) _ (fun _ => .answer 1) _

/-! ## Threads resume their requests -/

theorem findIdx?_of_named (hd : Distinct Vector.name l) (h : Named l r.name result) :
    l.findIdx? (fun v => v.name = r.name) = some result := by
  obtain ⟨hr, hname⟩ := h.getElem
  obtain ⟨before, after, hl, hlength, hbefore, -⟩ := hd.split hr
  generalize l[result] = v at hl hname hbefore
  have hnone : before.findIdx? (fun v => v.name = r.name) = none := by
    rw [List.findIdx?_eq_none_iff]
    intro w hw
    simpa [← hname] using hbefore w hw
  rw [hl, List.findIdx?_append, hnone, List.findIdx?_cons, if_pos (by simpa using hname), ← hlength]
  simp

/-- A thread that has its index and its element resumes its request. One that is to append does so
while its name is not stored. -/
theorem Stage.resumes (h : Stage l r rest) (hl : Holds m l) (hd : Distinct Vector.name l)
    (hfresh : Fresh r rest) (hcalloc : ∀ size, rest.action? ≠ some (.calloc size))
    (hnew : ∀ v, rest.action? = some (.append v) → v.name ∉ l.map Vector.name) :
    vectorServer.Resumes allocating m r rest := by
  have hfind : ∀ {result : Nat} {k : Option Nat → Selector}, Named l r.name result →
      (ask (.findVector r.name) k).run (perform allocating) m =
        (k (some result)).run (perform allocating) m := by
    intro result k hn
    rw [run_ask (hl.perform_findVector allocating r.name), findIdx?_of_named hd hn]
  have hsize : ∀ {result : Nat} (hr : result < l.length) {k : Int → Selector},
      (ask (.sizeAt result) k).run (perform allocating) m =
        (k l[result].size).run (perform allocating) m := by
    intro result hr k
    rw [run_ask (hl.perform_sizeAt allocating hr)]
  have hselector : ∀ {rest : Selector}, rest.run (perform allocating) m =
      (functionSelector r).run (perform allocating) m →
        vectorServer.Resumes allocating m r rest := fun hrun => .inr hrun
  cases h with
  | done x => exact .inl rfl
  | initFind hop =>
    apply hselector
    rw [functionSelector_init hop]
    rfl
  | @initSize result hop h =>
    apply hselector
    rw [functionSelector_init hop, Request.init, hfind h]
    rfl
  | initCalloc hop => exact absurd rfl (hcalloc _)
  | @initAppend v hop =>
    obtain ⟨block, hblock, heq⟩ := hfresh v rfl
    have hv : v.name = r.name := by
      have hact : (ask (.append v) Request.initAppended).action? = _ := congrArg Program.action? heq
      have : Action.append v = .append ⟨r.name, r.arg1, block.1, block.2⟩ := Option.some.inj hact
      rw [Action.append.inj this]
    have hnone : l.findIdx? (fun v => v.name = r.name) = none := by
      rw [List.findIdx?_eq_none_iff]
      intro w hw
      have hne : w.name ≠ r.name := fun hwr =>
        hnew v rfl (List.mem_map.2 ⟨w, hw, hwr.trans hv.symm⟩)
      simpa using hne
    apply hselector
    rw [functionSelector_init hop, Request.init,
      run_ask (hl.perform_findVector allocating r.name), hnone, Request.initFound,
      run_ask (show perform allocating (.calloc r.arg1) m = (.ok (some block), m) by
        simp only [perform, allocating, hblock]), heq]
  | setFind hop h0 =>
    apply hselector
    rw [functionSelector_set hop]
    rfl
  | @setSize result hop h0 h =>
    apply hselector
    rw [functionSelector_set hop, Request.set, hfind h]
    rfl
  | @setStore result hop h =>
    obtain ⟨hr, -, h0, hi⟩ := h.getElem
    have hnamed : Named l r.name result := ⟨_, h.choose_spec.1⟩
    apply hselector
    rw [functionSelector_set hop, Request.set, hfind hnamed, Request.setFound, hsize hr,
      Request.setSized, if_neg (by rw [size_check]; omega)]
  | getFind hop h0 =>
    apply hselector
    rw [functionSelector_get hop]
    rfl
  | @getSize result hop h0 h =>
    apply hselector
    rw [functionSelector_get hop, Request.get, hfind h]
    rfl
  | @getLoad result hop h =>
    obtain ⟨hr, -, h0, hi⟩ := h.getElem
    have hnamed : Named l r.name result := ⟨_, h.choose_spec.1⟩
    apply hselector
    rw [functionSelector_get hop, Request.get, hfind hnamed, Request.getFound, hsize hr,
      Request.getSized, if_neg (by rw [size_check]; omega)]
  | destroyFind hop =>
    apply hselector
    rw [functionSelector_destroy hop]
    rfl
  | @destroyRemove result hop h =>
    apply hselector
    rw [functionSelector_destroy hop, Request.destroy, hfind h]
    rfl

/-- A call that does not end its thread leaves the storage. -/
theorem Stage.quiet (h : Stage l r (.call a next))
    (hnone : (next (perform allocating a m).1).result? = none) :
    (perform allocating a m).2 = m := by
  have hends : ∀ (a : Action) (output : Int) (x : a.Answer),
      (match x with
        | .error fault => (.done (.error fault) : Selector)
        | .ok _ => Exercise1.answer output).result? ≠ none := by
    intro a output x
    cases x with
    | error fault => exact Option.some_ne_none _
    | ok y => exact Option.some_ne_none _
  cases h with
  | initFind hop => rfl
  | initSize hop h => rfl
  | initCalloc hop => rfl
  | @initAppend v hop =>
    exfalso
    revert hnone
    generalize (perform allocating (.append v) m).1 = x
    intro hnone
    cases x with
    | error fault => cases hnone
    | ok appended =>
      cases appended with
      | false => cases hnone
      | true => cases hnone
  | setFind hop h0 => rfl
  | setSize hop h0 h => rfl
  | @setStore result hop h => exact absurd hnone (hends (.store result r.arg1 r.arg2) 0 _)
  | getFind hop h0 => rfl
  | getSize hop h0 h => rfl
  | getLoad hop h => rfl
  | destroyFind hop => rfl
  | @destroyRemove result hop h => exact absurd hnone (hends (.remove result) 1 _)

/-- An `init` that is given memory goes on. -/
theorem Stage.calloc_continues {size : Int}
    {next : (Action.calloc size).Answer → Selector} (h : Stage l r (.call (.calloc size) next))
    (h0 : r.operation = 0 → 0 ≤ r.arg1) {result : Except Fault Response} :
    (next (perform allocating (.calloc size) m).1).result? ≠ some result := by
  cases h with
  | initCalloc hop =>
    have hblock : callocBlock true r.arg1 =
        some ⟨List.replicate r.arg1.toNat 0,
          by rw [List.length_replicate, Int.toNat_of_nonneg (h0 hop)]⟩ :=
      dif_pos ⟨rfl, h0 hop⟩
    change (r.initAllocated (callocBlock true r.arg1)).result? ≠ some result
    rw [hblock]
    exact fun h => nomatch h

end Threads

/-! ## Runs -/

/-- The invariant: the threads are at their stages, and the storage is what the requests that have
ended leave when they are served one after the other. -/
structure Linear (steps : List (VectorPool × VectorMove)) (p : VectorPool) : Prop where
  looked : Looked p
  fresh : ∀ t ∈ p.threads, Fresh t.request t.rest
  client : ∀ t ∈ p.threads, FromClient t.request
  serial : vectorServer.Serial allocating initialMemory (vectorServer.ended steps) p.shared
  history : ∃ M, MapHistory (vectorServer.ended steps) M ∧ Represents p.shared M

namespace Linear

variable {steps : List (VectorPool × VectorMove)} {p : VectorPool} {m : VectorMove}

theorem init : Linear [] initialPool where
  looked := .init
  fresh := fun _ ht => absurd ht List.not_mem_nil
  client := fun _ ht => absurd ht List.not_mem_nil
  serial := .nil
  history := ⟨_, .nil, holds_initialMemory.represents .nil rfl⟩

/-- The move serves a request at once, or none. -/
theorem atomic (h : Linear steps p) (hC : Offered m) (hG : Apart p m) :
    vectorServer.Atomic allocating p m := by
  obtain ⟨l, hl, hstage⟩ := h.looked
  obtain ⟨M, -, l', hl', hd, -, -, -⟩ := h.history
  have hsame : l' = l := hl'.stored_eq.symm.trans hl.stored_eq
  rw [hsame] at hd
  refine System.atomic_of_resumes fun i env r a next hm ht => ?_
  subst hm
  obtain rfl : env = allocating := hC
  refine ⟨rfl, ?_⟩
  have hmem : (⟨r, .call a next⟩ : VectorThread) ∈ p.threads := List.mem_of_getElem? ht
  have hthread : Stage l r (.call a next) := hstage _ hmem
  have hcalled : System.called p (.run (τ := Request) i allocating) = some (r, a) := by
    simp only [System.called, ht]
  cases hresult : (next (vectorServer.exec allocating a p.shared).1).result? with
  | none => exact hthread.quiet hresult
  | some result =>
    refine hthread.resumes hl hd (h.fresh _ hmem) ?_ ?_
    · -- a `calloc` is not the last call
      intro size hsize
      obtain rfl : a = .calloc size := Option.some.inj hsize
      exact absurd hresult (hthread.calloc_continues ((h.client _ hmem).operation.1))
    · intro v hv
      obtain rfl : a = .append v := Option.some.inj hv
      have hmissing := hG.2.1.1 v
      unfold appended at hmissing
      rw [hcalled, hl.stored_eq] at hmissing
      exact hmissing rfl

theorem step (h : Linear steps p) (hC : Offered m) (hG : Apart p m) :
    Linear (steps ++ [(p, m)]) (vectorServer.move p m) := by
  have hatomic := h.atomic hC hG
  have hserial := System.serial_of_atomic h.serial hatomic
  have hlooked := (h.looked.step hG.1).2
  obtain ⟨l, hl, hstage⟩ := h.looked
  obtain ⟨M, hhistory, hM⟩ := h.history
  have hthreads : (∀ t ∈ (vectorServer.move p m).threads, Fresh t.request t.rest) ∧
      ∀ t ∈ (vectorServer.move p m).threads, FromClient t.request := by
    have hmoved := vectorServer.moved p m
    generalize vectorServer.move p m = p' at hmoved
    cases hmoved with
    | spawned r =>
      constructor
      · intro t ht
        rcases List.mem_append.1 ht with ht | ht
        · exact h.fresh t ht
        · rw [List.mem_singleton.1 ht]
          exact fresh_functionSelector r
      · intro t ht
        rcases List.mem_append.1 ht with ht | ht
        · exact h.client t ht
        · rw [List.mem_singleton.1 ht]
          exact hC
    | idle i env hc hr => exact ⟨h.fresh, h.client⟩
    | @called env before after r a next ht hc hr =>
      obtain rfl : env = allocating := hC
      have hmem : (⟨r, .call a next⟩ : VectorThread) ∈ p.threads := by simp [ht]
      have hold : ∀ t, t ∈ before ∨ t ∈ after → t ∈ p.threads := by
        intro t htm
        rw [ht, List.mem_append, List.mem_cons]
        exact htm.imp_right Or.inr
      constructor
      · intro t htm
        rcases List.mem_append.1 htm with htm | htm
        · exact h.fresh t (hold t (.inl htm))
        rcases List.mem_cons.1 htm with rfl | htm
        · exact (hstage _ hmem).fresh
        · exact h.fresh t (hold t (.inr htm))
      · intro t htm
        rcases List.mem_append.1 htm with htm | htm
        · exact h.client t (hold t (.inl htm))
        rcases List.mem_cons.1 htm with rfl | htm
        · exact h.client ⟨r, .call a next⟩ hmem
        · exact h.client t (hold t (.inr htm))
  rw [← System.ended_snoc] at hserial
  refine ⟨hlooked, hthreads.1, hthreads.2, hserial, ?_⟩
  rw [System.ended_snoc]
  unfold System.Atomic at hatomic
  cases hr : vectorServer.returned p m with
  | none =>
    rw [hr] at hatomic
    refine ⟨M, ?_, ?_⟩
    · rwa [Option.toList_none, List.append_nil]
    · rwa [hatomic]
  | some x =>
    obtain ⟨r, result⟩ := x
    rw [hr] at hatomic
    obtain ⟨service, req, hreq⟩ : FromClient r := by
      have hmoved := vectorServer.moved p m
      generalize vectorServer.move p m = p' at hmoved
      cases hmoved with
      | spawned r' => cases hr
      | idle i env hc hnone =>
        rw [hnone] at hr
        cases hr
      | @called env before after r' a next ht hc hret =>
        rw [hret] at hr
        obtain ⟨_, -, hpair⟩ := Option.map_eq_some_iff.1 hr
        have hsame : r' = r := congrArg Prod.fst hpair
        rw [← hsame]
        exact h.client ⟨r', .call a next⟩ (by simp [ht])
    obtain ⟨response, m', M', hserve, hM', hserved⟩ := hM.meets hreq hG.2.2
    have hboth : (result, (vectorServer.move p m).shared) = (.ok response, m') := by
      rw [← hatomic, ← hserve]
      rfl
    obtain ⟨rfl, hshared⟩ := Prod.mk.inj hboth
    exact ⟨M', hhistory.snoc hreq hserved, hshared ▸ hM'⟩

end Linear

end DistributedSystems.Exercise1
