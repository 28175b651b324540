import DistributedSystems.Exercise1.Lookups

/-!
# Names of concurrent requests

`init` looks for its name before it takes the mutex and appends inside it, and `destroy` removes
whatever is at the index it found. Names stay distinct, and no second `init` of a name succeeds
before a `destroy` of it does, in a run in which every append finds its name missing and every
removal finds a vector of its name at its index (`names_unique`). Nothing in the code makes that so:
`init_twice` is a schedule of two threads.
-/

namespace DistributedSystems.Exercise1

open Support

/-! ## What a run has done to a name -/

/-- The move ends a request of this operation and name with a 1. -/
def succeeds (operation : Int) (name : Bytes) (x : VectorPool × VectorMove) : Bool :=
  match vectorServer.returned x.1 x.2 with
  | some (r, .ok response) => r.operation = operation ∧ r.name = name ∧ response.output = 1
  | _ => false

/-- How many `init`s of the name have answered with 1 since a `destroy` of it last did. -/
def inits (name : Bytes) (steps : List (VectorPool × VectorMove)) : Nat :=
  countSince (succeeds 3 name) (succeeds 0 name) steps

/-- Whether a move ends a successful request of the name, by what it returns. -/
theorem succeeds_eq {operation : Int} {name : Bytes} {p : VectorPool} {m : VectorMove} {r : Request}
    {response : Response} (h : vectorServer.returned p m = some (r, .ok response)) :
    succeeds operation name (p, m) =
      decide (r.operation = operation ∧ r.name = name ∧ response.output = 1) := by
  unfold succeeds
  rw [h]

/-- No name is stored twice, nor created twice without being destroyed. -/
structure NamesUnique (steps : List (VectorPool × VectorMove)) (p : VectorPool) : Prop where
  distinct : Distinct Vector.name p.shared.stored
  inits_le : ∀ name, inits name steps ≤ 1

/-- The vector that the move appends. -/
def appended (p : VectorPool) (m : VectorMove) : Option Vector :=
  match System.called p m with
  | some (_, .append v) => some v
  | _ => none

/-- The name and the index of the removal that the move makes. -/
def removal (p : VectorPool) (m : VectorMove) : Option (Bytes × Nat) :=
  match System.called p m with
  | some (r, .remove result) => some (r.name, result)
  | _ => none

/-- An append finds its name missing, and a removal finds its name at its index. -/
def Undisturbed (p : VectorPool) (m : VectorMove) : Prop :=
  (∀ v ∈ appended p m, v.name ∉ p.shared.stored.map Vector.name) ∧
    ∀ x ∈ removal p m, (p.shared.stored.map Vector.name)[x.2]? = some x.1

instance (p : VectorPool) (m : VectorMove) : Decidable (Undisturbed p m) :=
  inferInstanceAs (Decidable ((∀ v ∈ appended p m, _) ∧ ∀ x ∈ removal p m, _))

/-! ## The programs -/

/-- No `init` and no `destroy` has ended with a 1. -/
def Unsuccessful (r : Request) (rest : Selector) : Prop :=
  r.operation = 0 ∨ r.operation = 3 → ∀ response, rest.result? = some (.ok response) →
    response.output ≠ 1

/-- Only an `init` appends, its own name, only a `destroy` removes, and they succeed exactly
then. -/
def Ends (r : Request) : (a : Action) → (a.Answer → Selector) → Prop
  | .append v, next => r.operation = 0 ∧ v.name = r.name ∧ next (.ok true) = answer 1 ∧
      ∀ x, x ≠ .ok true → Unsuccessful r (next x)
  | .remove _, next => r.operation = 3 ∧ next (.ok ()) = answer 1 ∧
      ∀ x, x ≠ .ok () → Unsuccessful r (next x)
  | _, next => ∀ x, Unsuccessful r (next x)

namespace Unsuccessful

variable {r : Request}

theorem ask (a : Action) (next : a.Result → Selector) : Unsuccessful r (ask a next) :=
  fun _ _ h => nomatch h

theorem error (fault : Fault) : Unsuccessful r (.done (.error fault)) :=
  fun _ _ h => nomatch h

theorem answer {output : Int} (h : output ≠ 1) : Unsuccessful r (answer output) := by
  intro _ response hr
  cases hr
  exact h

/-- What follows a call is unsuccessful if it is for every result that is no fault. -/
theorem proceed {a : Action} {next : a.Result → Selector}
    (h : ∀ y, Unsuccessful r (next y)) (x : a.Answer) :
    Unsuccessful r (match x with
      | .error fault => .done (.error fault)
      | .ok result => next result) := by
  cases x with
  | error fault => exact error fault
  | ok y => exact h y

end Unsuccessful

/-- A call and what follows its result. A fault ends the program at once. -/
theorem always_ask {P : (a : Action) → (a.Answer → Selector) → Prop} {a : Action}
    {next : a.Result → Selector} (hP : P a fun
      | .error fault => .done (.error fault)
      | .ok result => next result)
    (hnext : ∀ y, (next y).Always P) : (ask a next).Always P := by
  refine ⟨hP, fun x => ?_⟩
  cases x with
  | error fault => trivial
  | ok y => exact hnext y

namespace Ends

variable {r : Request}

theorem init (hop : r.operation = 0) : r.init.Always (Ends r) := by
  unfold Request.init
  refine always_ask (Unsuccessful.proceed fun found => ?_) fun found => ?_
  · cases found with
    | none => exact .ask _ _
    | some result => exact .ask _ _
  cases found with
  | none =>
    refine always_ask (Unsuccessful.proceed fun block => ?_) fun block => ?_
    · cases block with
      | none => exact .answer (by decide)
      | some block => exact .ask _ _
    cases block with
    | none => trivial
    | some block =>
      refine always_ask ⟨hop, rfl, rfl, fun x hx => ?_⟩ fun appended => ?_
      · rcases x with fault | appended
        · exact .error fault
        · cases appended with
          | false => exact .answer (by decide)
          | true => exact absurd rfl hx
      · unfold Request.initAppended
        split <;> trivial
  | some result =>
    refine always_ask (Unsuccessful.proceed fun size => ?_) fun size => ?_
    · unfold Request.initSized
      split <;> exact .answer (by decide)
    · unfold Request.initSized
      split <;> trivial

theorem set (hop : r.operation = 1) : r.set.Always (Ends r) := by
  have hother : ∀ rest, Unsuccessful r rest := fun _ h => by rw [hop] at h; omega
  unfold Request.set
  refine always_ask (fun _ => hother _) fun found => ?_
  cases found with
  | none => trivial
  | some result =>
    refine always_ask (fun _ => hother _) fun size => ?_
    unfold Request.setSized
    split
    · trivial
    · exact always_ask (fun _ => hother _) fun _ => trivial

theorem get (hop : r.operation = 2) : r.get.Always (Ends r) := by
  have hother : ∀ rest, Unsuccessful r rest := fun _ h => by rw [hop] at h; omega
  unfold Request.get
  refine always_ask (fun _ => hother _) fun found => ?_
  cases found with
  | none => trivial
  | some result =>
    refine always_ask (fun _ => hother _) fun size => ?_
    unfold Request.getSized
    split
    · trivial
    · exact always_ask (fun _ => hother _) fun _ => trivial

theorem destroy (hop : r.operation = 3) : r.destroy.Always (Ends r) := by
  unfold Request.destroy
  refine always_ask (Unsuccessful.proceed fun found => ?_) fun found => ?_
  · cases found with
    | none => exact .answer (by decide)
    | some result => exact .ask _ _
  cases found with
  | none => trivial
  | some result =>
    refine always_ask ⟨hop, rfl, fun x hx => ?_⟩ fun _ => trivial
    rcases x with fault | done
    · exact .error fault
    · exact absurd rfl hx

/-- Only the section of an `init` creates and only that of a `destroy` removes, and the answer 1
tells. -/
theorem functionSelector (r : Request) : (functionSelector r).Always (Ends r) := by
  unfold Exercise1.functionSelector
  split_ifs with h0 h1 h2 h3
  · exact init h0
  · exact set h1
  · exact get h2
  · exact destroy h3
  · trivial

end Ends

/-- A call that leaves its request unsuccessful. -/
theorem Unsuccessful.succeeds {p : VectorPool} {m : VectorMove} {r : Request} {rest : Selector}
    (h : Unsuccessful r rest) (hr : vectorServer.returned p m = rest.result?.map (r, ·))
    {operation : Int} (hop : operation = 0 ∨ operation = 3) (name : Bytes) :
    succeeds operation name (p, m) = false := by
  unfold Exercise1.succeeds
  simp only [hr]
  cases hres : rest.result? with
  | none => rfl
  | some result =>
    cases result with
    | error fault => rfl
    | ok response =>
      simp only [Option.map_some, decide_eq_false_iff_not]
      intro hs
      obtain ⟨rfl, -, h1⟩ := hs
      exact h hop response hres h1

/-! ## Runs -/

/-- The invariant: a stored name counts one `init` and any other none. -/
structure Counted (steps : List (VectorPool × VectorMove)) (p : VectorPool) : Prop where
  holds : ∃ l, Holds p.shared l
  distinct : Distinct Vector.name p.shared.stored
  always : p.Always Ends
  count : ∀ name, inits name steps = if name ∈ p.shared.stored.map Vector.name then 1 else 0

namespace Counted

variable {steps : List (VectorPool × VectorMove)} {p : VectorPool} {m : VectorMove}

/-- No vectors and no answers. -/
theorem init : Counted [] initialPool where
  holds := ⟨[], holds_initialMemory⟩
  distinct := List.nodup_nil
  always := fun _ ht => absurd ht List.not_mem_nil
  count := fun _ => rfl

/-- What the invariant promises: a name is stored at most once, and counts at most one. -/
theorem namesUnique (h : Counted steps p) : NamesUnique steps p where
  distinct := h.distinct
  inits_le name := by
    rw [h.count]
    split <;> omega

/-- A move that keeps the names, and ends no `init` and no `destroy` with a 1. -/
theorem quiet {p' : VectorPool} {l l' : List Vector} (h : Counted steps p) (hl : Holds p.shared l)
    (hl' : Holds p'.shared l') (hnames : l'.map Vector.name = l.map Vector.name)
    (halways : p'.Always Ends)
    (hquiet : ∀ operation, operation = 0 ∨ operation = 3 → ∀ name,
      succeeds operation name (p, m) = false) : Counted (steps ++ [(p, m)]) p' := by
  have hstored : p'.shared.stored.map Vector.name = p.shared.stored.map Vector.name := by
    rw [hl'.stored_eq, hl.stored_eq, hnames]
  refine ⟨⟨l', hl'⟩, ?_, halways, fun name => ?_⟩
  · unfold Distinct
    rw [hstored]
    exact h.distinct
  · unfold inits
    rw [countSince_snoc, hquiet 3 (Or.inr rfl), hquiet 0 (Or.inl rfl), hstored]
    exact h.count name

/-- An append of a missing name. -/
theorem append {p' : VectorPool} {l : List Vector} {v : Vector} {r : Request} (h : Counted steps p)
    (hl : Holds p.shared l) (hl' : Holds p'.shared (l ++ [v]))
    (hnew : v.name ∉ p.shared.stored.map Vector.name) (halways : p'.Always Ends)
    (hop : r.operation = 0) (hname : v.name = r.name)
    (hr : vectorServer.returned p m = some (r, .ok ⟨1, none⟩)) :
    Counted (steps ++ [(p, m)]) p' := by
  have hstored : p'.shared.stored = p.shared.stored ++ [v] := by
    rw [hl'.stored_eq, hl.stored_eq]
  refine ⟨⟨_, hl'⟩, ?_, halways, fun name => ?_⟩
  · rw [hstored]
    refine h.distinct.append (lookup_eq_none_iff.2 fun w hw he => hnew ?_)
    exact he ▸ List.mem_map_of_mem hw
  · have h3 : succeeds 3 name (p, m) = false := by simp [succeeds_eq hr, hop]
    have h0 : succeeds 0 name (p, m) = decide (v.name = name) := by
      simp [succeeds_eq hr, hop, hname]
    have hcount := h.count name
    unfold inits at hcount ⊢
    rw [countSince_snoc, h3, h0, hcount, hstored, List.map_append, List.map_singleton]
    by_cases he : name = v.name
    · subst he
      simp [hnew]
    · simp [he, Ne.symm he]

/-- A removal of the name of the `destroy`. -/
theorem remove {p' : VectorPool} {l : List Vector} {result : Nat} {r : Request}
    (h : Counted steps p) (hl : Holds p.shared l) (hl' : Holds p'.shared (l.eraseIdx result))
    (hr : result < l.length) (hname : l[result].name = r.name) (halways : p'.Always Ends)
    (hop : r.operation = 3) (hret : vectorServer.returned p m = some (r, .ok ⟨1, none⟩)) :
    Counted (steps ++ [(p, m)]) p' := by
  have hd : Distinct Vector.name l := hl.stored_eq ▸ h.distinct
  refine ⟨⟨_, hl'⟩, ?_, halways, fun name => ?_⟩
  · rw [hl'.stored_eq]
    exact hd.eraseIdx result
  · have h3 : succeeds 3 name (p, m) = decide (r.name = name) := by simp [succeeds_eq hret, hop]
    have h0 : succeeds 0 name (p, m) = false := by simp [succeeds_eq hret, hop]
    have hcount := h.count name
    unfold inits at hcount ⊢
    rw [countSince_snoc, h3, h0, hcount, hl.stored_eq, hl'.stored_eq]
    simp only [mem_keys_eraseIdx hd hr, hname]
    by_cases he : name = r.name
    · subst he
      simp
    · simp [he, Ne.symm he]

/-- An undisturbed move keeps names and counts in step: an append stores a name that was missing and
counts one, a removal takes the one vector of its name and counts none. -/
theorem step (h : Counted steps p) (hG : Undisturbed p m) :
    Counted (steps ++ [(p, m)]) (vectorServer.move p m) := by
  have halways : (vectorServer.move p m).Always Ends :=
    vectorServer.always_move p (fun r _ => Ends.functionSelector r) h.always
  obtain ⟨l, hl⟩ := h.holds
  have hm := vectorServer.moved p m
  generalize vectorServer.move p m = p' at hm halways
  cases hm with
  | spawned r => exact h.quiet hl hl rfl halways fun _ _ _ => rfl
  | idle i env hc hr =>
    exact h.quiet hl hl rfl halways fun _ _ _ => by simp [succeeds, hr]
  | @called env before after r a next ht hc hr =>
    have hends : Ends r a next := (h.always ⟨r, .call a next⟩ (by simp [ht])).1
    obtain ⟨l', hp, hl'⟩ := hl.performed env a
    have hr : vectorServer.returned p (.run before.length env) =
        (next (perform env a p.shared).1).result?.map (r, ·) := hr
    have hnew : ∀ v, a = .append v → v.name ∉ p.shared.stored.map Vector.name := by
      intro v hv
      subst hv
      apply hG.1
      unfold appended
      rw [hc]
      rfl
    have hfound : ∀ result, a = .remove result → (l.map Vector.name)[result]? = some r.name := by
      intro result hresult
      subst hresult
      rw [← hl.stored_eq]
      apply hG.2 (r.name, result)
      unfold removal
      rw [hc]
      rfl
    generalize (perform env a p.shared).1 = x at hp hr
    have hother : Unsuccessful r (next x) → l'.map Vector.name = l.map Vector.name →
        Counted (steps ++ [(p, .run before.length env)]) _ := fun hu hnames =>
      h.quiet hl hl' hnames halways fun _ hop name => hu.succeeds hr hop name
    cases hp with
    | appended v =>
      obtain ⟨hop, hname, hone, -⟩ := hends
      exact h.append hl hl' (hnew v rfl) halways hop hname (by rw [hr, hone]; rfl)
    | @removed result hlt =>
      obtain ⟨hop, hone, -⟩ := hends
      have hname : l[result].name = r.name := by
        have hf := hfound result rfl
        rw [List.getElem?_map, List.getElem?_eq_getElem hlt] at hf
        exact Option.some.inj hf
      exact h.remove hl hl' hlt hname halways hop (by rw [hr, hone]; rfl)
    | stored value hlt h0 hi => exact hother (hends _) (map_set_key hlt rfl)
    | findVector name => exact hother (hends _) rfl
    | sizeAt hlt => exact hother (hends _) rfl
    | calloc size block => exact hother (hends _) rfl
    | noMemory v => exact hother (hends.2.2.2 _ (by simp)) rfl
    | loaded hlt h0 hi => exact hother (hends _) rfl
    | fault a f hf =>
      refine hother ?_ rfl
      cases a with
      | append v => exact hends.2.2.2 _ (by simp)
      | remove result => exact hends.2.2 _ (by simp)
      | _ => exact hends _

end Counted

/-! ## Between the look-up and the section -/

/-- When an `init` appends, no other thread has created the name since its `find_vector`, unless one
has then destroyed it; and when a `destroy` removes, no other thread has removed a vector at or
before its index since its `find_vector`. -/
def NotOvertaken (earlier : List (VectorPool × VectorMove)) (p : VectorPool) : VectorMove → Prop
  | .spawn _ => True
  | .run i env =>
    (∀ v ∈ appended p (.run i env), ¬ Stands (succeeds 0 v.name · = true)
      (succeeds 3 v.name · = true) (System.sinceCall i (· = .findVector v.name) earlier)) ∧
    ∀ x ∈ removal p (.run i env), ∀ y ∈ System.sinceCall i (· = .findVector x.1) earlier,
      ∀ k ∈ removedAt y.1 y.2, x.2 < k

instance (earlier : List (VectorPool × VectorMove)) (p : VectorPool) :
    DecidablePred (NotOvertaken earlier p)
  | .spawn _ => inferInstanceAs (Decidable True)
  | .run _ _ => inferInstanceAs (Decidable ((∀ _ ∈ _, _) ∧ ∀ _ ∈ _, ∀ _ ∈ _, ∀ _ ∈ _, _))

/-- The calls of an `init` that has not found its name. -/
def Action.Creates : Action → Prop
  | .calloc _ => True
  | .append _ => True
  | _ => False

/-- An `init` comes to create its vector, and a `destroy` to remove one, by the answer of their
`find_vector`. -/
def Follows (r : Request) (a : Action) (next : a.Answer → Selector) : Prop :=
  ∀ x b, (next x).action? = some b →
    (b.Creates → a.Creates ∨
      (⟨a, x⟩ : (a : Action) × a.Answer) = ⟨.findVector r.name, .ok none⟩) ∧
    ∀ result, b = .remove result →
      (⟨a, x⟩ : (a : Action) × a.Answer) = ⟨.findVector r.name, .ok (some result)⟩

namespace Follows

variable {r : Request}

/-- A call before the end of a request. -/
theorem last {a : Action} {next : a.Answer → Selector} (h : ∀ x, (next x).action? = none) :
    Follows r a next := by
  intro x b hb
  rw [h x] at hb
  cases hb

theorem init : r.init.Always (Follows r) := by
  unfold Request.init
  refine always_ask (fun x b hb => ?_) fun found => ?_
  · rcases x with fault | _ | result
    · cases hb
    · cases hb
      exact ⟨fun _ => Or.inr rfl, fun _ h => by cases h⟩
    · cases hb
      exact ⟨fun h => h.elim, fun _ h => by cases h⟩
  cases found with
  | none =>
    refine always_ask (fun x b hb => ⟨fun _ => Or.inl trivial, fun _ h => ?_⟩) fun block => ?_
    · subst h
      rcases x with fault | _ | block <;> cases hb
    · cases block with
      | none => trivial
      | some block =>
        refine always_ask (last fun x => ?_) fun appended => ?_
        · rcases x with fault | _ | _ <;> rfl
        · cases appended <;> trivial
  | some result =>
    refine always_ask (last fun x => ?_) fun size => ?_
    · rcases x with fault | size
      · rfl
      · simp only [Request.initSized]
        split <;> rfl
    · unfold Request.initSized
      split <;> trivial

theorem set : r.set.Always (Follows r) := by
  unfold Request.set
  refine always_ask (fun x b hb => ?_) fun found => ?_
  · rcases x with fault | _ | result
    all_goals cases hb
    exact ⟨fun h => h.elim, fun _ h => by cases h⟩
  cases found with
  | none => trivial
  | some result =>
    refine always_ask (fun x b hb => ?_) fun size => ?_
    · rcases x with fault | size
      · cases hb
      · simp only [Request.setSized] at hb
        split at hb
        all_goals cases hb
        exact ⟨fun h => h.elim, fun _ h => by cases h⟩
    · unfold Request.setSized
      split
      · trivial
      · refine always_ask (last fun x => ?_) fun _ => trivial
        rcases x with fault | _ <;> rfl

theorem get : r.get.Always (Follows r) := by
  unfold Request.get
  refine always_ask (fun x b hb => ?_) fun found => ?_
  · rcases x with fault | _ | result
    all_goals cases hb
    exact ⟨fun h => h.elim, fun _ h => by cases h⟩
  cases found with
  | none => trivial
  | some result =>
    refine always_ask (fun x b hb => ?_) fun size => ?_
    · rcases x with fault | size
      · cases hb
      · simp only [Request.getSized] at hb
        split at hb
        all_goals cases hb
        exact ⟨fun h => h.elim, fun _ h => by cases h⟩
    · unfold Request.getSized
      split
      · trivial
      · refine always_ask (last fun x => ?_) fun _ => trivial
        rcases x with fault | _ <;> rfl

theorem destroy : r.destroy.Always (Follows r) := by
  unfold Request.destroy
  refine always_ask (fun x b hb => ?_) fun found => ?_
  · rcases x with fault | _ | result
    · cases hb
    · cases hb
    · cases hb
      exact ⟨fun h => h.elim, fun k h => by cases h; rfl⟩
  cases found with
  | none => trivial
  | some result =>
    refine always_ask (last fun x => ?_) fun _ => trivial
    rcases x with fault | _ <;> rfl

/-- A program that creates, or removes at an index, has looked its name up before. -/
theorem functionSelector (r : Request) : (functionSelector r).Always (Follows r) := by
  unfold Exercise1.functionSelector
  split_ifs
  · exact init
  · exact set
  · exact get
  · exact destroy
  · trivial

/-- No request starts with such a call. -/
theorem start {b : Action} (hb : (Exercise1.functionSelector r).action? = some b) :
    ¬ b.Creates ∧ ∀ result, b ≠ .remove result := by
  unfold Exercise1.functionSelector at hb
  split_ifs at hb
  all_goals cases hb
  all_goals exact ⟨id, fun _ h => by cases h⟩

end Follows

/-- The names after a step that keeps the counts. -/
theorem Counted.mem_names_iff {steps : List (VectorPool × VectorMove)} {p p' : VectorPool}
    {m : VectorMove} (h : Counted steps p) (h' : Counted (steps ++ [(p, m)]) p') (name : Bytes) :
    name ∈ p'.shared.stored.map Vector.name ↔ succeeds 0 name (p, m) = true ∨
      name ∈ p.shared.stored.map Vector.name ∧ ¬ succeeds 3 name (p, m) = true := by
  have hcount := h.count name
  have hcount' := h'.count name
  have hnot : succeeds 0 name (p, m) = true → ¬ succeeds 3 name (p, m) = true := by
    unfold succeeds
    split
    · simp only [decide_eq_true_eq]
      rintro ⟨hop, -⟩ ⟨hop', -⟩
      omega
    · simp
  unfold inits at hcount hcount'
  rw [countSince_snoc, hcount] at hcount'
  by_cases h0 : succeeds 0 name (p, m) = true
  · rw [if_neg (hnot h0), if_pos h0] at hcount'
    refine iff_of_true ?_ (Or.inl h0)
    by_contra hmem
    rw [if_neg hmem] at hcount'
    omega
  · rw [if_neg h0] at hcount'
    by_cases h3 : succeeds 3 name (p, m) = true
    · rw [if_pos h3] at hcount'
      refine iff_of_false (fun hmem => ?_) (by simp [h0, h3])
      rw [if_pos hmem] at hcount'
      omega
    · rw [if_neg h3] at hcount'
      have hiff : name ∈ p'.shared.stored.map Vector.name ↔
          name ∈ p.shared.stored.map Vector.name := by
        by_cases hmem : name ∈ p.shared.stored.map Vector.name
        · rw [if_pos hmem] at hcount'
          refine iff_of_true ?_ hmem
          by_contra hgone
          rw [if_neg hgone] at hcount'
          omega
        · rw [if_neg hmem] at hcount'
          refine iff_of_false (fun hnew => ?_) hmem
          rw [if_pos hnew] at hcount'
          omega
      simp only [hiff, h0, h3, false_or, Bool.false_eq_true, not_false_iff, and_true]

/-- The invariant of the threads between a look-up and a section: the name of an `init` is stored
exactly when another thread has come in between, and the index of a `destroy` has a vector of its
name unless another thread has moved it. -/
structure Searched (steps : List (VectorPool × VectorMove)) (p : VectorPool) : Prop where
  counted : Counted steps p
  always : p.Always Follows
  mem_iff : ∀ i t b, p.threads[i]? = some t → t.rest.action? = some b → b.Creates →
    (t.request.name ∈ p.shared.stored.map Vector.name ↔
      Stands (succeeds 0 t.request.name · = true) (succeeds 3 t.request.name · = true)
        (System.sinceCall i (· = .findVector t.request.name) steps))
  named : ∀ i t result, p.threads[i]? = some t → t.rest.action? = some (.remove result) →
    (∀ y ∈ System.sinceCall i (· = .findVector t.request.name) steps,
      ∀ k ∈ removedAt y.1 y.2, result < k) → Named p.shared.stored t.request.name result

/-- What a move leaves of the vector at an index that it does not take away. -/
theorem named_move {p : VectorPool} {l : List Vector} (hl : Holds p.shared l) (m : VectorMove)
    {name : Bytes} {result : Nat} (hk : ∀ k ∈ removedAt p m, result < k)
    (h : Named p.shared.stored name result) :
    Named (vectorServer.move p m).shared.stored name result := by
  have hm := vectorServer.moved p m
  generalize vectorServer.move p m = p' at hm
  cases hm with
  | spawned r => exact h
  | idle i env => exact h
  | @called env before after r a next ht hc hr =>
    obtain ⟨l', hp, hl'⟩ := hl.performed env a
    obtain ⟨n, hn⟩ := h
    refine ⟨n, ?_⟩
    rw [hl.stored_eq] at hn
    change (Memory.stored (perform env a p.shared).2)[result]?.map Vector.shape = _
    rw [hl'.stored_eq]
    refine hp.shape (fun k hremove => hk k ?_) hn
    subst hremove
    simp [removedAt, hc]

namespace Searched

variable {steps : List (VectorPool × VectorMove)} {p : VectorPool} {m : VectorMove}

/-- No thread has looked anything up. -/
theorem init : Searched [] initialPool where
  counted := .init
  always := fun _ ht => absurd ht List.not_mem_nil
  mem_iff := fun _ _ _ ht => by cases ht
  named := fun _ _ _ ht => by cases ht

/-- What is not overtaken finds its name missing, or at its index. -/
theorem undisturbed (h : Searched steps p) (hG : NotOvertaken steps p m) : Undisturbed p m := by
  cases m with
  | spawn r =>
    constructor
    · intro v hv
      cases hv
    · intro x hx
      cases hx
  | run i env =>
    obtain ⟨happend, hremove⟩ := hG
    refine ⟨fun v hv => ?_, fun x hx => ?_⟩
    · have hnot := happend v hv
      unfold appended at hv
      split at hv
      · rename_i r v' hc
        cases hv
        obtain ⟨next, ht⟩ := System.exists_of_called p hc
        have hends : Ends r (.append v) next := (h.counted.always _ (List.mem_of_getElem? ht)).1
        rw [hends.2.1] at hnot ⊢
        exact fun hmem => hnot ((h.mem_iff i _ _ ht rfl trivial).1 hmem)
      · cases hv
    · have hafter := hremove x hx
      unfold removal at hx
      split at hx
      · rename_i r result hc
        cases hx
        obtain ⟨next, ht⟩ := System.exists_of_called p hc
        obtain ⟨hlt, hname⟩ := (h.named i _ result ht rfl hafter).getElem
        rw [List.getElem?_map, List.getElem?_eq_getElem hlt]
        exact congrArg some hname
      · cases hx

/-- A look-up that answers leaves the storage as it is, and says what is there. -/
theorem looked {i : Nat} {env : Allocator} {r : Request} {a : Action} {next : a.Answer → Selector}
    {found : Option Nat} (h : Searched steps p) (ht : p.threads[i]? = some ⟨r, .call a next⟩)
    (hx : (⟨a, (vectorServer.exec env a p.shared).1⟩ : (a : Action) × a.Answer) =
      ⟨.findVector r.name, .ok found⟩) :
    a = .findVector r.name ∧
      (vectorServer.move p (.run i env)).shared.stored = p.shared.stored ∧
      found = p.shared.stored.findIdx? fun v => v.name = r.name := by
  obtain ⟨l, hl⟩ := h.counted.holds
  obtain ⟨rfl, hx⟩ := Sigma.mk.inj hx
  have hperform := hl.perform_findVector env r.name
  rw [vectorServer.shared_move p ht env]
  have hx : (perform env (.findVector r.name) p.shared).1 = .ok found := eq_of_heq hx
  rw [hperform] at hx
  refine ⟨rfl, ?_, ?_⟩
  · change Memory.stored (perform env (.findVector r.name) p.shared).2 = _
    rw [hperform]
  · rw [hl.stored_eq]
    exact (Except.ok.inj hx).symm

/-- What a thread has found missing is stored exactly when others have created it since, by how the
thread has come to its next call. -/
theorem mem_iff_move (h : Searched steps p) (hcounted : Counted (steps ++ [(p, m)])
    (vectorServer.move p m)) {i : Nat} {t : VectorThread} {b : Action}
    (hafter : (vectorServer.move p m).threads[i]? = some t) (hb : t.rest.action? = some b)
    (hcreates : b.Creates) :
    t.request.name ∈ (vectorServer.move p m).shared.stored.map Vector.name ↔
      Stands (succeeds 0 t.request.name · = true) (succeeds 3 t.request.name · = true)
        (System.sinceCall i (· = .findVector t.request.name) (steps ++ [(p, m)])) := by
  have hmem := h.counted.mem_names_iff hcounted t.request.name
  cases vectorServer.came p hafter with
  | stayed ht hm =>
    rw [hmem, System.sinceCall_snoc (System.calls_eq_false_of_stayed hm), stands_snoc,
      h.mem_iff i t b ht hb hcreates]
  | started r => exact absurd hcreates (Follows.start hb).1
  | @called env r a next ht hc =>
    have hfollows : Follows r a next := by
      have halways := h.always _ (List.mem_of_getElem? ht)
      exact halways.1
    rcases (hfollows _ b hb).1 hcreates with ha | hnone
    · -- the `calloc` before the section
      have hpicked : decide (a = .findVector r.name) = false := by
        cases a with
        | calloc size => rfl
        | append v => rfl
        | _ => exact ha.elim
      rw [hmem, System.sinceCall_snoc (System.calls_eq_false_of_unpicked hc hpicked), stands_snoc,
        h.mem_iff i _ a ht rfl ha]
    · obtain ⟨rfl, hstored, hfind⟩ := h.looked ht hnone
      rw [hstored, System.sinceCall_snoc_of_picked hc (decide_eq_true rfl)]
      refine iff_of_false (fun hmem => ?_) id
      obtain ⟨v, hv, hname⟩ := List.mem_map.1 hmem
      have hnot := List.findIdx?_eq_none_iff.1 hfind.symm v hv
      exact absurd hname (of_decide_eq_false hnot)

/-- The vector at an index that a thread has found keeps its place while nothing at or before it is
removed. -/
theorem named_after (h : Searched steps p) {i : Nat} {t : VectorThread} {result : Nat}
    (hafter : (vectorServer.move p m).threads[i]? = some t)
    (hb : t.rest.action? = some (.remove result))
    (hk : ∀ y ∈ System.sinceCall i (· = .findVector t.request.name) (steps ++ [(p, m)]),
      ∀ k ∈ removedAt y.1 y.2, result < k) :
    Named (vectorServer.move p m).shared.stored t.request.name result := by
  obtain ⟨l, hl⟩ := h.counted.holds
  cases vectorServer.came p hafter with
  | stayed ht hm =>
    rw [System.sinceCall_snoc (System.calls_eq_false_of_stayed hm)] at hk
    refine named_move hl m (hk (p, m) (by simp)) (h.named i t result ht hb fun y hy => ?_)
    exact hk y (List.mem_append_left _ hy)
  | started r => exact absurd rfl ((Follows.start hb).2 result)
  | @called env r a next ht hc =>
    have hfollows : Follows r a next := by
      have halways := h.always _ (List.mem_of_getElem? ht)
      exact halways.1
    obtain ⟨-, hstored, hfind⟩ := h.looked ht ((hfollows _ _ hb).2 result rfl)
    rw [hstored]
    exact named_of_findIdx? hfind.symm

/-- A move that is not overtaken keeps the invariant: what its thread has looked up is still so, and
the move is undisturbed. -/
theorem step (h : Searched steps p) (hG : NotOvertaken steps p m) :
    Searched (steps ++ [(p, m)]) (vectorServer.move p m) where
  counted := h.counted.step (h.undisturbed hG)
  always := vectorServer.always_move p (fun r _ => Follows.functionSelector r) h.always
  mem_iff _ _ _ := h.mem_iff_move (h.counted.step (h.undisturbed hG))
  named _ _ _ := h.named_after

end Searched

/-- **Names stay unique**, and no name is created twice without being destroyed, in every run in
which no `init` and no `destroy` is overtaken: no other thread creates the name, or removes a vector
at or before the index, between the look-up and the section. -/
theorem names_unique {steps : List (VectorPool × VectorMove)} {p : VectorPool}
    (h : Run vectorServer.Step initialPool steps p) (hG : Heeds NotOvertaken steps) :
    NamesUnique steps p := by
  have hsearched : Searched steps p := by
    refine h.history_of_heeds (I := Searched) Searched.init ?_ hG
    intro steps p m p' hI hG hs
    exact hs ▸ hI.step hG
  exact hsearched.counted.namesUnique

/-- `v1` is created, destroyed and created again, while `v2` is created between the look-up and the
section of its second `init`. -/
theorem v1_unique :
    let moves := [.spawn initV1, .run 0 allocating, .run 0 allocating, .run 0 allocating,
      .spawn destroyV1, .run 1 allocating, .run 1 allocating,
      .spawn initV1, .run 2 allocating, .spawn initV2, .run 3 allocating, .run 3 allocating,
      .run 3 allocating, .run 2 allocating, .run 2 allocating]
    NamesUnique (vectorServer.schedule initialPool moves)
      (moves.foldl vectorServer.move initialPool) :=
  names_unique (vectorServer.run_schedule _ _) (by decide)

/-- Two threads look for `v1` before either of them appends it. -/
theorem init_twice :
    ¬ ∀ (steps : List (VectorPool × VectorMove)) (p : VectorPool),
      Run vectorServer.Step initialPool steps p → NamesUnique steps p := by
  intro h
  have hrun := vectorServer.run_schedule initialPool
    [.spawn initV1, .spawn initV1, .run 0 allocating, .run 0 allocating, .run 1 allocating,
      .run 1 allocating, .run 0 allocating, .run 1 allocating]
  have hone : inits initV1.name _ ≤ 1 := (h _ _ hrun).inits_le initV1.name
  exact absurd hone (by decide)

end DistributedSystems.Exercise1
