import DistributedSystems.Exercise1.Lookups

/-!
# Failed inits

An `init` that is answered with -1 is to leave the storage as it was (`Intact`). Two branches do:
`calloc` fails, or there is such a vector with another size. The third is a `realloc` that fails
after `capacity` has been doubled, and it returns without releasing `mutex_memory`. So after a run
whose `set`s and `destroy`s access what is stored, a failed `init` is intact exactly when no growth
has failed so far and this is not one (`failed_init_intact_iff`). The third vector that a fresh
server stores needs such a growth.
-/

namespace DistributedSystems.Exercise1

open Support

/-- The answers that the moves bring, each with its request. -/
def answers (p : VectorPool) (ms : List VectorMove) : List (Request × Except Fault Response) :=
  (vectorServer.schedule p ms).filterMap fun x => vectorServer.returned x.1 x.2

/-- Nothing of the server is another one: not the storage, nor what any further requests are
answered with, in whatever order the threads take their calls. -/
structure Intact (p : VectorPool) (m : Memory) : Prop where
  size_eq : m.storage.size = p.shared.storage.size
  stored_eq : m.stored = p.shared.stored
  capacity_eq : m.storage.capacity = p.shared.storage.capacity
  slots : m.storage.capacity = m.storage.vectors.length
  free : m.locked = false
  answers_eq : ∀ ms, answers ⟨m, p.threads⟩ ms = answers p ms

theorem Intact.refl {p : VectorPool} {l : List Vector} (h : Holds p.shared l)
    (hfree : p.shared.locked = false) : Intact p p.shared where
  size_eq := rfl
  stored_eq := rfl
  capacity_eq := rfl
  slots := (h.slots hfree).symm
  free := hfree
  answers_eq _ := rfl

/-- The `init` has a vector to append, the storage is full, and there is no memory for more. -/
def GrowthFails (m : Memory) (req : Request) (allocator : Allocator) : Prop :=
  m.storage.findVector req.name = .ok none ∧ (callocBlock allocator.calloc req.arg1).isSome ∧
    m.storage.capacity ≤ m.storage.size ∧ allocator.realloc = false

/-- The section of a `set` or a `destroy` accesses the stored vectors in range. -/
def StaysInside (m : Memory) : Action → Prop
  | .store result i value => InRange m.stored (.store result i value)
  | .remove result => InRange m.stored (.remove result)
  | _ => True

/-- The section of an `init` has room for its vector, or memory for more and a capacity that is an
`int`. -/
def HasRoom (m : Memory) (allocator : Allocator) : Action → Prop
  | .append _ => m.storage.capacity ≤ m.storage.size →
      allocator.realloc = true ∧ m.storage.capacity * 2 < 2 ^ 31
  | _ => True

/-- Whatever section the move runs stays inside what is stored. -/
def Inside (p : VectorPool) : VectorMove → Prop
  | .spawn _ => True
  | .run i allocator => ∀ r a, System.called p (.run (τ := Request) i allocator) = some (r, a) →
      StaysInside p.shared a

/-- Whatever section the move runs has room. -/
def Roomy (p : VectorPool) : VectorMove → Prop
  | .spawn _ => True
  | .run i allocator => ∀ r a, System.called p (.run (τ := Request) i allocator) = some (r, a) →
      HasRoom p.shared allocator a

/-! ## One call -/

theorem Memory.underMutex_free_iff {α : Type} {m : Memory}
    {body : Storage → Except Fault (α × Storage)} {keeps : α → Bool} :
    (m.underMutex body keeps).2.locked = false ↔
      m.locked = false ∧ ∃ a s, body m.storage = .ok (a, s) ∧ keeps a = false := by
  unfold Memory.underMutex
  cases hl : m.locked with
  | true => simp [hl]
  | false =>
    cases hbody : body m.storage with
    | error fault => simp
    | ok result =>
      obtain ⟨a, s⟩ := result
      simp

namespace Holds

variable {m : Memory} {l : List Vector} {allocator : Allocator}

theorem append_keeps_iff (h : Holds m l) (hfree : m.locked = false) (v : Vector) :
    (∃ a s, m.storage.append allocator.realloc v = .ok (a, s) ∧ (!a) = false) ↔
      HasRoom m allocator (.append v) := by
  constructor
  · rintro ⟨a, s, happ, ha⟩ hfull
    by_contra hnone
    rcases h.append_full v hfull hnone with hfault | ⟨s', hfalse, -⟩
    · rw [hfault] at happ
      cases happ
    · rw [hfalse] at happ
      cases happ
      cases ha
  · intro hroom
    obtain ⟨s, happ, -⟩ := h.append hfree allocator.realloc v hroom
    exact ⟨true, s, happ, rfl⟩

theorem store_keeps_iff (h : Holds m l) (hfree : m.locked = false) (result : Nat) (i value : Int) :
    (∃ (a : Unit) (s : Storage), m.storage.store result i value = .ok (a, s) ∧ false = false) ↔
      StaysInside m (.store result i value) := by
  unfold StaysInside
  rw [h.stored_eq]
  constructor
  · rintro ⟨a, s, hstore, -⟩
    unfold Storage.store at hstore
    by_cases hr : result < l.length
    · rw [h.vectorAt hr] at hstore
      by_cases hi : 0 ≤ i ∧ i.toNat < l[result].elements.length
      · exact ⟨hr, hi⟩
      · simp only [bind, Except.bind, Vector.elementAt_outside hi] at hstore
        cases hstore
    · rw [h.vectorAt_outside hr] at hstore
      cases hstore
  · rintro ⟨hr, h0, hi⟩
    obtain ⟨s, hstore, -⟩ := h.store hfree value hr h0 hi
    exact ⟨(), s, hstore, rfl⟩

theorem remove_keeps_iff (h : Holds m l) (hfree : m.locked = false) (result : Nat) :
    (∃ (a : Unit) (s : Storage), m.storage.remove result = .ok (a, s) ∧ false = false) ↔
      StaysInside m (.remove result) := by
  unfold StaysInside
  rw [h.stored_eq]
  constructor
  · rintro ⟨a, s, hremove, -⟩
    by_contra hr
    unfold Storage.remove at hremove
    rw [h.vectorAt_outside hr] at hremove
    cases hremove
  · intro hr
    obtain ⟨s, hremove, -⟩ := h.remove hfree hr
    exact ⟨(), s, hremove, rfl⟩

/-- **A call leaves the mutex free exactly when it finds it free**, stays inside what is stored and
has room. -/
theorem free_iff (h : Holds m l) (a : Action) :
    (perform allocator a m).2.locked = false ↔
      m.locked = false ∧ StaysInside m a ∧ HasRoom m allocator a := by
  cases a with
  | append v =>
    refine Memory.underMutex_free_iff.trans (and_congr_right fun hfree => ?_)
    exact (h.append_keeps_iff hfree v).trans (and_iff_right trivial).symm
  | store result i value =>
    refine Memory.underMutex_free_iff.trans (and_congr_right fun hfree => ?_)
    exact (h.store_keeps_iff hfree result i value).trans (and_iff_left trivial).symm
  | remove result =>
    refine Memory.underMutex_free_iff.trans (and_congr_right fun hfree => ?_)
    exact (h.remove_keeps_iff hfree result).trans (and_iff_left trivial).symm
  | _ => exact (and_iff_left ⟨trivial, trivial⟩).symm

end Holds

/-! ## One request -/

theorem Storage.push_ne_false (s s' : Storage) (v : Vector) :
    (do let s₁ ← s.push v; return (true, s₁)) ≠ Except.ok (false, s') := by
  intro h
  cases hpush : s.push v with
  | error fault => rw [hpush] at h; cases h
  | ok s₁ => rw [hpush] at h; cases h

theorem Storage.realloc_of_append_false {s s' : Storage} {realloc : Bool} {v : Vector}
    (h : s.append realloc v = .ok (false, s')) : realloc = false := by
  unfold Storage.append at h
  by_cases hfull : s.capacity ≤ s.size
  · cases hrealloc : realloc with
    | false => rfl
    | true =>
      simp only [if_pos hfull, hrealloc, if_true] at h
      split at h
      · cases h
      · exact absurd h (Storage.push_ne_false _ s' v)
  · rw [if_neg hfull] at h
    exact absurd h (s.push_ne_false s' v)

/-- The section of an `init` that is answered with -1. -/
theorem Holds.append_fails {m : Memory} {l : List Vector} {allocator : Allocator} {v : Vector}
    (h : Holds m l) (hfail : ((ask (.append v) Request.initAppended).run (perform allocator) m).1 =
      .ok ⟨-1, none⟩) :
    m.storage.capacity ≤ m.storage.size ∧ allocator.realloc = false ∧
      ((ask (.append v) Request.initAppended).run (perform allocator) m).2.locked = true := by
  simp only [ask, Program.run, perform, Memory.underMutex] at hfail ⊢
  cases hl : m.locked with
  | true =>
    rw [hl] at hfail
    cases hfail
  | false =>
    rw [hl] at hfail
    by_cases hroom : m.storage.capacity ≤ m.storage.size →
        allocator.realloc = true ∧ m.storage.capacity * 2 < 2 ^ 31
    · obtain ⟨s, happ, -⟩ := h.append hl allocator.realloc v hroom
      rw [happ] at hfail
      cases hfail
    · obtain ⟨hfull, hnone⟩ := Classical.not_imp.1 hroom
      rcases h.append_full v hfull hnone with happ | ⟨s, happ, -⟩
      · rw [happ] at hfail
        cases hfail
      · rw [happ]
        exact ⟨hfull, Storage.realloc_of_append_false happ, rfl⟩

/-- Which of its branches an `init` takes, if it is answered with -1. -/
theorem Holds.init_fails {m : Memory} {l : List Vector} {allocator : Allocator} {req : Request}
    (h : Holds m l) (hop : req.operation = 0)
    (hfail : (serve allocator req m).1 = .ok ⟨-1, none⟩) :
    GrowthFails m req allocator ∧ (serve allocator req m).2.locked = true ∨
      ¬ GrowthFails m req allocator ∧ (serve allocator req m).2 = m := by
  have hserve : serve allocator req m =
      (req.initFound (l.findIdx? fun v => v.name = req.name)).run (perform allocator) m := by
    simp only [serve, functionSelector, if_pos hop, Request.init, ask, Program.run, perform,
      h.findVector]
  rw [hserve] at hfail ⊢
  cases hfind : l.findIdx? fun v => v.name = req.name with
  | some result =>
    -- The size of the vector that there is decides on the answer.
    refine Or.inr ⟨fun hgrow => ?_, ?_⟩
    · have hnone := hgrow.1
      rw [h.findVector, hfind] at hnone
      cases hnone
    · obtain ⟨hr, -⟩ := findIdx?_key_eq_some hfind
      simp only [Request.initFound, ask, Program.run, perform, h.vectorAt hr, Except.map,
        Request.initSized]
      split <;> rfl
  | none =>
    rw [hfind] at hfail
    cases hcalloc : callocBlock allocator.calloc req.arg1 with
    | none =>
      refine Or.inr ⟨fun hgrow => ?_, ?_⟩
      · have hsome := hgrow.2.1
        rw [hcalloc] at hsome
        cases hsome
      · simp only [Request.initFound, ask, Program.run, perform, hcalloc, Request.initAllocated]
        rfl
    | some block =>
      have happend : (req.initFound none).run (perform allocator) m =
          (ask (.append ⟨req.name, req.arg1, block.1, block.2⟩) Request.initAppended).run
            (perform allocator) m := by
        simp only [Request.initFound, ask, Program.run, perform, hcalloc, Request.initAllocated]
      rw [happend] at hfail ⊢
      obtain ⟨hfull, hrealloc, hlocked⟩ := h.append_fails hfail
      refine Or.inl ⟨⟨?_, ?_, hfull, hrealloc⟩, hlocked⟩
      · rw [h.findVector, hfind]
      · rw [hcalloc]
        rfl

/-! ## Runs -/

/-- All storages that runs reach hold vectors. -/
theorem holds_of_run {steps : List (VectorPool × VectorMove)} {p : VectorPool}
    (h : Run vectorServer.Step initialPool steps p) : ∃ l, Holds p.shared l := by
  induction h with
  | nil => exact ⟨[], holds_initialMemory⟩
  | @snoc steps p p' m _ hs ih =>
    obtain ⟨l, hl⟩ := ih
    have hm := vectorServer.moved p m
    rw [hs] at hm
    cases hm with
    | spawned r => exact ⟨l, hl⟩
    | idle i env => exact ⟨l, hl⟩
    | called env ht hc hr =>
      obtain ⟨l', -, hl'⟩ := hl.performed env _
      exact ⟨l', hl'⟩

/-- A move leaves the mutex free exactly when it finds it free, stays inside and has room. -/
theorem free_move_iff {p : VectorPool} {l : List Vector} (h : Holds p.shared l) (m : VectorMove) :
    (vectorServer.move p m).shared.locked = false ↔
      p.shared.locked = false ∧ Inside p m ∧ Roomy p m := by
  have hm := vectorServer.moved p m
  generalize vectorServer.move p m = p' at hm
  cases hm with
  | spawned r => exact (and_iff_left ⟨trivial, trivial⟩).symm
  | idle i env hc hr =>
    refine (and_iff_left ⟨?_, ?_⟩).symm
    · intro r a hca
      rw [hc] at hca
      cases hca
    · intro r a hca
      rw [hc] at hca
      cases hca
  | @called env before after r a next ht hc hr =>
    refine (h.free_iff a).trans (and_congr_right fun _ => and_congr ?_ ?_)
    · refine ⟨fun hinside r' a' hca => ?_, fun hinside => hinside r a hc⟩
      rw [hc] at hca
      cases hca
      exact hinside
    · refine ⟨fun hroom r' a' hca => ?_, fun hroom => hroom r a hc⟩
      rw [hc] at hca
      cases hca
      exact hroom

/-- **The mutex is free exactly after runs in which every section has released it.** -/
theorem free_iff_guarded {steps : List (VectorPool × VectorMove)} {p : VectorPool}
    (h : Run vectorServer.Step initialPool steps p) :
    p.shared.locked = false ↔ Guarded Inside steps ∧ Guarded Roomy steps := by
  induction h with
  | nil => exact iff_of_true rfl ⟨guarded_nil Inside, guarded_nil Roomy⟩
  | @snoc steps p p' m hrun hs ih =>
    obtain ⟨l, hl⟩ := holds_of_run hrun
    rw [guarded_snoc, guarded_snoc, ← hs, free_move_iff hl m, ih, and_and_and_comm]

/-- **When a failed `init` leaves the storage intact**, in every storage reached by a run whose
`set`s and `destroy`s stay inside what is stored: every section so far has had room, and the `init`
does not fail to make room. -/
theorem failed_init_intact_iff {steps : List (VectorPool × VectorMove)} {p : VectorPool}
    (h : Run vectorServer.Step initialPool steps p) (hG : Guarded Inside steps) {req : Request}
    {allocator : Allocator} (hop : req.operation = 0)
    (hfail : (serve allocator req p.shared).1 = .ok ⟨-1, none⟩) :
    Intact p (serve allocator req p.shared).2 ↔
      Guarded Roomy steps ∧ ¬ GrowthFails p.shared req allocator := by
  obtain ⟨l, hl⟩ := holds_of_run h
  have hfree : p.shared.locked = false ↔ Guarded Roomy steps :=
    (free_iff_guarded h).trans (and_iff_right hG)
  rw [← hfree]
  rcases hl.init_fails hop hfail with ⟨hgrow, hlocked⟩ | ⟨hgrow, hsame⟩
  · refine iff_of_false (fun hintact => ?_) fun hkeep => hkeep.2 hgrow
    have hfree := hintact.free
    rw [hlocked] at hfree
    cases hfree
  · rw [hsame]
    exact ⟨fun hintact => ⟨hintact.free, hgrow⟩, fun hkeep => .refl hl hkeep.1⟩

/-- `v1` and `v2` are stored, which fills the storage. -/
def storedV1V2 : List VectorMove :=
  [.spawn initV1, .run 0 allocating, .run 0 allocating, .run 0 allocating,
    .spawn initV2, .run 1 allocating, .run 1 allocating, .run 1 allocating]

def initV3 : Request := ⟨0, [118, 51], 1, 0⟩

def setV2 : Request := ⟨1, [118, 50], 0, 7⟩

/-- Without memory for the elements of `v3`, nothing has changed since an element of `v2` was
set. -/
theorem v3_intact :
    let moves := storedV1V2 ++
      [.spawn setV2, .run 2 allocating, .run 2 allocating, .run 2 allocating]
    Intact (moves.foldl vectorServer.move initialPool)
      (serve ⟨false, false⟩ initV3 (moves.foldl vectorServer.move initialPool).shared).2 := by
  intro moves
  have hrun := vectorServer.run_schedule initialPool moves
  obtain ⟨hinside, hroomy⟩ := (free_iff_guarded hrun).1 rfl
  refine (failed_init_intact_iff hrun hinside rfl (by decide)).2 ⟨hroomy, ?_⟩
  rintro ⟨-, hcalloc, -⟩
  exact absurd hcalloc (by decide)

/-- Without memory for a third slot, the mutex stays held and `capacity` is 4. -/
theorem v3_not_intact :
    ¬ ∀ (steps : List (VectorPool × VectorMove)) (p : VectorPool),
      Run vectorServer.Step initialPool steps p → ∀ (req : Request) (allocator : Allocator),
        req.operation = 0 → (serve allocator req p.shared).1 = .ok ⟨-1, none⟩ →
          Intact p (serve allocator req p.shared).2 := by
  intro h
  have hrun := vectorServer.run_schedule initialPool storedV1V2
  have hfree := (h _ _ hrun initV3 ⟨true, false⟩ rfl (by decide)).free
  have hlocked : (serve ⟨true, false⟩ initV3
      (storedV1V2.foldl vectorServer.move initialPool).shared).2.locked = true := by decide
  rw [hlocked] at hfree
  cases hfree

end DistributedSystems.Exercise1
