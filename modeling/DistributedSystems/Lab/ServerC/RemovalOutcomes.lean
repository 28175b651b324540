import DistributedSystems.Lab.ServerC.ThreadCalls
import DistributedSystems.Lab.Lib.UserPaths
import DistributedSystems.Support.Outcomes

/-!
# Outcomes of a removal

What `remove_directory` may do when any of its calls may fail at any time and `readdir` yields the
entries of a directory in any order. Each outcome is a `Removal` of the position that the path leads
to, and one with a result other than 0 has had a call fail (`outcome_removeDirectory`). The
induction is on the depth of the recursion, which the depth of the tree bounds, so that more depth
adds no outcome (`ends_removeDirectory_succ`). Together: `remove_directory` ends, and removes one
subtree or keeps its root (`removeDirectory_removesSubtree`).
-/

namespace DistributedSystems.Lab.Traced

open Fs Support Program

/-! ## The system -/

/-- An answer: the system's own, or a failure where calls may fail. -/
def MayFail {α : Type} (faults : Bool) (own answer : Option α) : Prop :=
  answer = own ∨ faults = true ∧ answer = none

/-- The answer and the tree after a call that changes the tree or fails. -/
def changed (t : Tree) : Option Tree → Int × Tree
  | none => (-1, t)
  | some u => (0, u)

/-- The calls of `remove_directory` on a POSIX system, where `faults` says whether they may fail
when they need not. An opened directory yields each of its names once, in any order. -/
def act (cwd : Pos) (faults : Bool) : (a : Call) → Tree → a.Answer → Tree → Prop
  | .opendir path, t, x, t' =>
    t' = t ∧ ∃ names, MayFail faults ((posix cwd).opendir t path) names ∧
      Option.Rel (fun names directory => directory.names.Perm names) names x
  | .readdir _, t, _, t' => t' = t
  | .closedir _, t, _, t' => t' = t
  | .malloc _, t, x, t' => t' = t ∧ (x = true ∨ faults = true)
  | .stat path, t, x, t' => t' = t ∧ MayFail faults ((posix cwd).stat t path) x
  | .unlink path, t, x, t' =>
    ∃ u, MayFail faults ((posix cwd).unlink t path) u ∧ (x, t') = changed t u
  | .rmdir path, t, x, t' =>
    ∃ u, MayFail faults ((posix cwd).rmdir t path) u ∧ (x, t') = changed t u
  | _, _, _, _ => False

/-- The calls that have failed. -/
def failed : Event Call.Answer → Bool
  | ⟨.opendir _, none⟩ => true
  | ⟨.malloc _, false⟩ => true
  | ⟨.stat _, none⟩ => true
  | ⟨.unlink _, r⟩ => r ≠ 0
  | ⟨.rmdir _, r⟩ => r ≠ 0
  | _ => false

section System

variable {α : Type} {faults : Bool}

/-- An answer that is no failure is the system's own. -/
theorem MayFail.of_some {own : Option α} {x : α} (h : MayFail faults own (some x)) :
    own = some x := by
  rcases h with h | ⟨-, h⟩
  · exact h.symm
  · cases h

/-- Without faults the answer is the system's own. -/
theorem MayFail.eq {own answer : Option α} (h : MayFail false own answer) : answer = own := by
  rcases h with h | ⟨h, -⟩
  · exact h
  · cases h

end System

/-! ## What is removed -/

/-- A removal that took these events. One that has not succeeded had a call fail. -/
structure RemovalOutcome (t : Tree) (p : Pos) (events : List (Event Call.Answer)) (r : Int)
    (t' : Tree) : Prop extends Removal t p (r, t') where
  blame : r ≠ 0 → ∃ e ∈ events, failed e = true

theorem exists_failed_mono {events events' : List (Event Call.Answer)} (hsub : events ⊆ events')
    (h : ∃ e ∈ events, failed e = true) : ∃ e ∈ events', failed e = true := by
  obtain ⟨e, he, hfailed⟩ := h
  exact ⟨e, hsub he, hfailed⟩

/-- More calls beside it leave the outcome as it is. -/
theorem RemovalOutcome.mono {t t' : Tree} {p : Pos} {r : Int}
    {events events' : List (Event Call.Answer)} (hsub : events ⊆ events')
    (h : RemovalOutcome t p events r t') : RemovalOutcome t p events' r t' :=
  ⟨h.toRemoval, fun hr => exists_failed_mono hsub (h.blame hr)⟩

section Safety

variable {cwd : Pos} {faults : Bool} {u u' : Tree} {events : List (Event Call.Answer)} {r : Int}

/-- One turn of the loop, given what the recursion does. -/
theorem outcome_removeEntry {recurse : Bytes → Part Int} {buf : Bytes} {p : Pos}
    (hp : ∀ q, resolve cwd u buf = some q → q = p)
    (hrec : u.get p = some .dir → resolve cwd u buf = some p → ∀ events r u',
      Ends (act cwd faults) (recurse buf) u events r u' → RemovalOutcome u p events r u')
    (h : Ends (act cwd faults) (removeEntry recurse buf) u events r u') :
    RemovalOutcome u p events r u' := by
  unfold removeEntry at h
  replace h := ends_call_iff.1 h
  obtain ⟨allocated, v, rest, rfl, ⟨rfl, -⟩, h⟩ := h
  cases allocated with
  | false =>
    obtain ⟨rfl, rfl, rfl⟩ := ends_done_iff.1 h
    exact ⟨.failed _ p, fun _ => ⟨_, List.mem_cons_self, rfl⟩⟩
  | true =>
    replace h := ends_call_iff.1 h
    obtain ⟨entry, v, rest', rfl, ⟨rfl, hs⟩, h⟩ := h
    cases entry with
    | none =>
      obtain ⟨rfl, rfl, rfl⟩ := ends_done_iff.1 h
      exact ⟨.failed _ p, fun _ => ⟨_, List.mem_cons_of_mem _ List.mem_cons_self, rfl⟩⟩
    | some entry =>
      obtain ⟨q, hq, he⟩ := posix.stat_eq_some_iff.1 hs.of_some
      obtain rfl := hp q hq
      cases entry with
      | dir =>
        have hout := hrec he hq rest' r u' h
        exact hout.mono fun e he => List.mem_cons_of_mem _ (List.mem_cons_of_mem _ he)
      | file content =>
        replace h := ends_call_iff.1 h
        obtain ⟨x, v, rest'', rfl, ⟨removed, hun, hx⟩, h⟩ := h
        obtain ⟨rfl, rfl, rfl⟩ := ends_done_iff.1 h
        cases removed with
        | none =>
          obtain ⟨rfl, rfl⟩ := Prod.mk.inj hx
          exact ⟨.failed _ q, fun _ => ⟨_, List.mem_cons_of_mem _
            (List.mem_cons_of_mem _ List.mem_cons_self), rfl⟩⟩
        | some v =>
          obtain ⟨rfl, rfl⟩ := Prod.mk.inj hx
          obtain ⟨hne, her⟩ := unlink_erases (SysCalls.le_refl _) hq hun.of_some
          exact ⟨.erased hne her, fun h0 => absurd rfl h0⟩

/-- The loop prunes below `p`, by induction on the names that are to come. -/
theorem outcome_removeEntries {recurse : Bytes → Part Int} {path : Bytes} (hpath : path ≠ [])
    {t : Tree} {p : Pos} (hp : resolve cwd t path = some p)
    (hrec : ∀ u n, u ≤ t → u.get (p ++ [n]) = some .dir →
      resolve cwd u (path ++ slash :: n) = some (p ++ [n]) → ∀ events r u',
      Ends (act cwd faults) (recurse (path ++ slash :: n)) u events r u' →
      RemovalOutcome u (p ++ [n]) events r u')
    {directory : Option Nat} {names : List Bytes}
    (hnames : ∀ n ∈ names, n = dot ∨ n = dotDot ∨ ValidName n) (hu : u ≤ t)
    (h : Ends (act cwd faults) (removeEntries recurse directory path names) u events r u') :
    (r = 0 ∨ r = -1) ∧ PrunedBelow p u' u ∧ (r ≠ 0 → ∃ e ∈ events, failed e = true) := by
  induction names generalizing u events with
  | nil =>
    replace h := ends_call_iff.1 h
    obtain ⟨_, v, rest, rfl, rfl, h⟩ := h
    obtain ⟨rfl, rfl, rfl⟩ := ends_done_iff.1 h
    exact ⟨Or.inl rfl, .refl p _, fun h0 => absurd rfl h0⟩
  | cons n names ih =>
    have hnames' : ∀ m ∈ names, m = dot ∨ m = dotDot ∨ ValidName m :=
      fun m hm => hnames m (List.mem_cons_of_mem _ hm)
    replace h := ends_call_iff.1 h
    obtain ⟨_, v, rest, rfl, rfl, h⟩ := h
    by_cases hdots : n = dot ∨ n = dotDot
    · rw [if_pos hdots] at h
      obtain ⟨hres, hpr, hblame⟩ := ih hnames' hu h
      exact ⟨hres, hpr, fun h0 => exists_failed_mono (List.subset_cons_self _ _) (hblame h0)⟩
    · rw [if_neg hdots] at h
      have hn : ValidName n := validName_of_not_dots (hnames n List.mem_cons_self) hdots
      replace h := ends_bind_iff.1 h
      obtain ⟨before, after, r', w, rfl, hone, h⟩ := h
      have hone := outcome_removeEntry
        (fun q hq => eq_snoc_of_resolve hu hpath hp hn hq) (hrec _ n hu) hone
      by_cases h0 : r' = 0
      · rw [if_pos h0] at h
        obtain ⟨hres, hpr, hblame⟩ := ih hnames' (le_trans hone.le hu) h
        refine ⟨hres, hpr.trans hone.prunedBelow, fun hr => ?_⟩
        exact exists_failed_mono (fun e he => List.mem_cons_of_mem _
          (List.mem_append_right _ he)) (hblame hr)
      · rw [if_neg h0] at h
        obtain ⟨rfl, rfl, rfl⟩ := ends_done_iff.1 h
        refine ⟨hone.result, hone.prunedBelow, fun hr => ?_⟩
        exact exists_failed_mono (fun e he => List.mem_cons_of_mem _
          (List.mem_append_left _ he)) (hone.blame hr)

/-- The entries below `p` are at most this deep. -/
def DepthBelow (t : Tree) (p : Pos) (depth : Nat) : Prop :=
  ∀ q e, t.get q = some e → p <+: q → q.length < p.length + depth

/-- What is below an entry is less deep by one. -/
theorem DepthBelow.snoc {t : Tree} {p : Pos} {depth : Nat} (h : DepthBelow t p (depth + 1))
    (hu : u ≤ t) (n : Bytes) : DepthBelow u (p ++ [n]) depth := by
  intro q e he hpq
  have hlt := h q e (hu q e he) ((List.prefix_append p [n]).trans hpq)
  rw [List.length_append, List.length_singleton]
  omega

/-- A tree is less deep than it has entries. -/
theorem DepthBelow.of_length_lt {t : Tree} {depth : Nat} (h : t.entries.length < depth) (p : Pos) :
    DepthBelow t p depth := by
  intro q e he _
  have hle := Tree.length_le_of_get he
  omega

/-- There is no depth left only where there is nothing. -/
theorem not_depthBelow_zero {t : Tree} {p : Pos} {e : Entry} (he : t.get p = some e) :
    ¬ DepthBelow t p 0 := by
  intro h
  have hlt := h p e he (List.prefix_refl p)
  omega

theorem names_of_perm {t : Tree} {p : Pos} {names : List Bytes} (h : names.Perm (listing t p)) :
    ∀ n ∈ names, n = dot ∨ n = dotDot ∨ ValidName n :=
  fun n hn => listing_names n (h.mem_iff.1 hn)

theorem ne_nil_of_resolve {t : Tree} {path : Bytes} {p : Pos} (hp : resolve cwd t path = some p) :
    path ≠ [] := by
  rintro rfl
  cases hp

/-- **What a removal may do**, by induction on the depth. Each level prunes below its own position
and erases that position last. -/
theorem outcome_removeDirectory (depth : Nat) {t t' : Tree} {path : Bytes} {p : Pos}
    (hp : resolve cwd t path = some p) (hd : t.get p = some .dir) (hdepth : DepthBelow t p depth)
    (h : Ends (act cwd faults) (removeDirectory depth path) t events r t') :
    RemovalOutcome t p events r t' := by
  induction depth generalizing t path p events r t' with
  | zero => exact absurd hdepth (not_depthBelow_zero hd)
  | succ depth ih =>
    replace h := ends_call_iff.1 h
    obtain ⟨opened, v, rest, rfl, ⟨rfl, names, hnames, hopened⟩, h⟩ := h
    cases hopened with
    | none =>
      obtain ⟨rfl, rfl, rfl⟩ := ends_done_iff.1 h
      exact ⟨.failed _ p, fun _ => ⟨_, List.mem_cons_self, rfl⟩⟩
    | some hperm =>
      rename_i names directory
      obtain ⟨q, hq, -, rfl⟩ := posix.opendir_eq_some_iff.1 hnames.of_some
      obtain rfl : p = q := Option.some.inj (hp.symm.trans hq)
      replace h := ends_bind_iff.1 h
      obtain ⟨before, after, r', u, rfl, hloop, h⟩ := h
      obtain ⟨hres, hpr, hblame⟩ := outcome_removeEntries (ne_nil_of_resolve hp) hp
        (fun u n hu hdn hqn events r u' h => ih hqn hdn (hdepth.snoc hu n) h)
        (names_of_perm hperm) (le_refl _) hloop
      replace h := ends_call_iff.1 h
      obtain ⟨_, v, rest, rfl, rfl, h⟩ := h
      -- only a loop that has not failed is followed by `rmdir`
      by_cases h0 : r' = 0
      · rw [if_pos h0] at h
        replace h := ends_call_iff.1 h
        obtain ⟨x, v, rest, rfl, ⟨removed, hrm, hx⟩, h⟩ := h
        obtain ⟨rfl, rfl, rfl⟩ := ends_done_iff.1 h
        cases removed with
        | none =>
          obtain ⟨rfl, rfl⟩ := Prod.mk.inj hx
          refine ⟨.of_pruned hpr, fun _ => ⟨_, List.mem_cons_of_mem _ (List.mem_append_right _
            (List.mem_cons_of_mem _ List.mem_cons_self)), rfl⟩⟩
        | some v =>
          obtain ⟨rfl, rfl⟩ := Prod.mk.inj hx
          obtain ⟨hne, her⟩ := rmdir_erases (SysCalls.le_refl _) hpr.le hp hrm.of_some
          exact ⟨.after_pruned hpr (.erased hne her), fun h0 => absurd rfl h0⟩
      · rw [if_neg h0] at h
        obtain ⟨rfl, rfl, rfl⟩ := ends_done_iff.1 h
        obtain rfl : r = -1 := hres.resolve_left h0
        exact ⟨.of_pruned hpr, fun hr => exists_failed_mono (fun e he => List.mem_cons_of_mem _
          (List.mem_append_left _ he)) (hblame hr)⟩

end Safety

/-! ## More depth -/

section Depth

variable {cwd : Pos} {faults : Bool} {u u' : Tree} {events : List (Event Call.Answer)} {r : Int}

theorem removeEntry_mono {recurse recurse' : Bytes → Part Int} {buf : Bytes} {p : Pos}
    (hp : ∀ q, resolve cwd u buf = some q → q = p)
    (hrec : u.get p = some .dir → resolve cwd u buf = some p → ∀ events r u',
      Ends (act cwd faults) (recurse buf) u events r u' →
      Ends (act cwd faults) (recurse' buf) u events r u')
    (h : Ends (act cwd faults) (removeEntry recurse buf) u events r u') :
    Ends (act cwd faults) (removeEntry recurse' buf) u events r u' := by
  replace h := ends_call_iff.1 h
  obtain ⟨allocated, v, rest, rfl, hm, h⟩ := h
  refine .call hm ?_
  obtain ⟨rfl, -⟩ := hm
  cases allocated with
  | false => exact h
  | true =>
    replace h := ends_call_iff.1 h
    obtain ⟨entry, v, rest', rfl, hs, h⟩ := h
    refine .call hs ?_
    obtain ⟨rfl, hs⟩ := hs
    cases entry with
    | none => exact h
    | some entry =>
      cases entry with
      | dir =>
        obtain ⟨q, hq, he⟩ := posix.stat_eq_some_iff.1 hs.of_some
        obtain rfl := hp q hq
        exact hrec he hq rest' r u' h
      | file content => exact h

/-- The loop with another recursion, given that this one does what the first does wherever the loop
is at a directory. -/
theorem removeEntries_mono {recurse recurse' : Bytes → Part Int} {path : Bytes} (hpath : path ≠ [])
    {t : Tree} {p : Pos} (hp : resolve cwd t path = some p)
    (hrec : ∀ u n, u ≤ t → u.get (p ++ [n]) = some .dir →
      resolve cwd u (path ++ slash :: n) = some (p ++ [n]) → ∀ events r u',
      Ends (act cwd faults) (recurse (path ++ slash :: n)) u events r u' →
      RemovalOutcome u (p ++ [n]) events r u' ∧
        Ends (act cwd faults) (recurse' (path ++ slash :: n)) u events r u')
    {directory : Option Nat} {names : List Bytes}
    (hnames : ∀ n ∈ names, n = dot ∨ n = dotDot ∨ ValidName n) (hu : u ≤ t)
    (h : Ends (act cwd faults) (removeEntries recurse directory path names) u events r u') :
    Ends (act cwd faults) (removeEntries recurse' directory path names) u events r u' := by
  induction names generalizing u events with
  | nil => exact h
  | cons n names ih =>
    have hnames' : ∀ m ∈ names, m = dot ∨ m = dotDot ∨ ValidName m :=
      fun m hm => hnames m (List.mem_cons_of_mem _ hm)
    replace h := ends_call_iff.1 h
    obtain ⟨_, v, rest, rfl, rfl, h⟩ := h
    refine .call rfl ?_
    by_cases hdots : n = dot ∨ n = dotDot
    · rw [if_pos hdots] at h ⊢
      exact ih hnames' hu h
    · rw [if_neg hdots] at h ⊢
      have hn : ValidName n := validName_of_not_dots (hnames n List.mem_cons_self) hdots
      have hpos : ∀ q, resolve cwd v (path ++ slash :: n) = some q → q = p ++ [n] :=
        fun q hq => eq_snoc_of_resolve hu hpath hp hn hq
      -- the rest of the loop starts from a tree that this turn has left smaller
      refine Ends.bind_mono (fun before r' w hone => ?_) (fun before r' w hone after h => ?_) h
      · exact removeEntry_mono hpos
          (fun hd hq events r u' h => (hrec v n hu hd hq events r u' h).2) hone
      · have hone := outcome_removeEntry hpos
          (fun hd hq events r u' h => (hrec v n hu hd hq events r u' h).1) hone
        by_cases h0 : r' = 0
        · rw [if_pos h0] at h ⊢
          exact ih hnames' (le_trans hone.le hu) h
        · rw [if_neg h0] at h ⊢
          exact h

theorem removeDirectory_mono {depth depth' : Nat} {t t' : Tree} {path : Bytes} {p : Pos}
    (hp : resolve cwd t path = some p) (hdepth : DepthBelow t p (depth + 1))
    (hrec : ∀ u n, u ≤ t → u.get (p ++ [n]) = some .dir →
      resolve cwd u (path ++ slash :: n) = some (p ++ [n]) → ∀ events r u',
      Ends (act cwd faults) (removeDirectory depth (path ++ slash :: n)) u events r u' →
      Ends (act cwd faults) (removeDirectory depth' (path ++ slash :: n)) u events r u')
    (h : Ends (act cwd faults) (removeDirectory (depth + 1) path) t events r t') :
    Ends (act cwd faults) (removeDirectory (depth' + 1) path) t events r t' := by
  replace h := ends_call_iff.1 h
  obtain ⟨opened, v, rest, rfl, hopen, h⟩ := h
  refine .call hopen ?_
  obtain ⟨rfl, names, hnames, hopened⟩ := hopen
  cases hopened with
  | none => exact h
  | some hperm =>
    obtain ⟨q, hq, -, rfl⟩ := posix.opendir_eq_some_iff.1 hnames.of_some
    obtain rfl : p = q := Option.some.inj (hp.symm.trans hq)
    refine Ends.bind_mono (fun before r' w hloop => ?_) (fun before r' w _ after h => h) h
    refine removeEntries_mono (ne_nil_of_resolve hp) hp (fun u n hu hdn hqn events r u' h => ?_)
      (names_of_perm hperm) (le_refl _) hloop
    exact ⟨outcome_removeDirectory depth hqn hdn (hdepth.snoc hu n) h,
      hrec u n hu hdn hqn events r u' h⟩

/-- **The removal ends above its depth**: where the depth is enough, more of it changes nothing. -/
theorem ends_removeDirectory_succ (depth : Nat) {t t' : Tree} {path : Bytes} {p : Pos}
    (hp : resolve cwd t path = some p) (hd : t.get p = some .dir) (hdepth : DepthBelow t p depth) :
    Ends (act cwd faults) (removeDirectory (depth + 1) path) t events r t' ↔
      Ends (act cwd faults) (removeDirectory depth path) t events r t' := by
  induction depth generalizing t path p events r t' with
  | zero => exact absurd hdepth (not_depthBelow_zero hd)
  | succ depth ih =>
    have hdepth' : DepthBelow t p (depth + 1 + 1) := by
      intro q e he hpq
      have hlt := hdepth q e he hpq
      omega
    constructor
    · refine removeDirectory_mono hp hdepth' fun u n hu hdn hqn events r u' h => ?_
      exact (ih hqn hdn (hdepth.snoc hu n)).1 h
    · refine removeDirectory_mono hp hdepth fun u n hu hdn hqn events r u' h => ?_
      exact (ih hqn hdn (hdepth.snoc hu n)).2 h

end Depth

/-! ## No faults -/

section Success

variable {cwd : Pos} {u u' : Tree} {events : List (Event Call.Answer)} {r : Int}

/-- Without faults, a turn of the loop for an entry that is there returns 0. -/
theorem removeEntry_ends_zero {recurse : Bytes → Part Int} {buf : Bytes} {q : Pos} {e : Entry}
    (hends : ∃ cs n, components buf = cs ++ [n] ∧ ValidName n)
    (hq : resolve cwd u buf = some q) (he : u.get q = some e)
    (hrec : e = .dir → ∀ events r u',
      Ends (act cwd false) (recurse buf) u events r u' → r = 0)
    (h : Ends (act cwd false) (removeEntry recurse buf) u events r u') : r = 0 := by
  replace h := ends_call_iff.1 h
  obtain ⟨allocated, v, rest, rfl, ⟨rfl, hm⟩, h⟩ := h
  obtain rfl : allocated = true := hm.resolve_right (by decide)
  replace h := ends_call_iff.1 h
  obtain ⟨entry, v, rest', rfl, ⟨rfl, hs⟩, h⟩ := h
  obtain rfl : entry = some e := hs.eq.trans (posix.stat_eq_some_iff.2 ⟨q, hq, he⟩)
  cases e with
  | dir => exact hrec rfl rest' r u' h
  | file old =>
    obtain ⟨w, hw⟩ := unlink_succeeds hends hq he
    replace h := ends_call_iff.1 h
    obtain ⟨x, v, rest'', rfl, ⟨removed, hun, hx⟩, h⟩ := h
    obtain ⟨rfl, rfl, rfl⟩ := ends_done_iff.1 h
    obtain rfl : removed = some w := hun.eq.trans hw
    exact (Prod.mk.inj hx).1

/-- The loop clears the entries that it is given, whatever their order. -/
theorem removeEntries_ends_zero {recurse : Bytes → Part Int} {path : Bytes} (hpath : path ≠ [])
    {t : Tree} {p : Pos} (hst : Steady cwd t path p)
    (hrec : ∀ u n, PrunedBelow p u t → u.get (p ++ [n]) = some .dir → ∀ events r u',
      Ends (act cwd false) (recurse (path ++ slash :: n)) u events r u' →
      RemovalOutcome u (p ++ [n]) events r u' ∧ r = 0)
    {directory : Option Nat} {names : List Bytes} (hnd : names.Nodup) (hu : PrunedBelow p u t)
    (hnames : ∀ n ∈ names, n = dot ∨ n = dotDot ∨ (u.get (p ++ [n])).isSome)
    (h : Ends (act cwd false) (removeEntries recurse directory path names) u events r u') :
    r = 0 ∧ PrunedBelow p u' u ∧ ∀ n ∈ names, u'.get (p ++ [n]) = none := by
  induction names generalizing u events with
  | nil =>
    replace h := ends_call_iff.1 h
    obtain ⟨_, v, rest, rfl, rfl, h⟩ := h
    obtain ⟨rfl, rfl, rfl⟩ := ends_done_iff.1 h
    exact ⟨rfl, .refl p _, by simp⟩
  | cons n names ih =>
    rw [List.nodup_cons] at hnd
    replace h := ends_call_iff.1 h
    obtain ⟨_, v, rest, rfl, rfl, h⟩ := h
    by_cases hdots : n = dot ∨ n = dotDot
    · rw [if_pos hdots] at h
      obtain ⟨hr, hpr, hgone⟩ := ih hnd.2 hu (fun m hm => hnames m (List.mem_cons_of_mem _ hm)) h
      refine ⟨hr, hpr, fun m hm => ?_⟩
      rcases List.mem_cons.1 hm with rfl | hm
      · exact get_dots u' p hdots
      · exact hgone m hm
    · rw [if_neg hdots] at h
      have hsome := (or_assoc.2 (hnames n List.mem_cons_self)).resolve_left hdots
      obtain ⟨e, he⟩ := Option.isSome_iff_exists.1 hsome
      have hn := Tree.validName_of_get he
      have hq : resolve cwd v (path ++ slash :: n) = some (p ++ [n]) :=
        ((hst.pruned hu).snoc hpath he).resolve_eq
      replace h := ends_bind_iff.1 h
      obtain ⟨before, after, r', w, rfl, hentry, h⟩ := h
      have hone := outcome_removeEntry (fun q hq' => Option.some.inj (hq'.symm.trans hq))
        (fun hd _ events r u' h => (hrec v n hu hd events r u' h).1) hentry
      obtain rfl : r' = 0 := removeEntry_ends_zero (ends_append_slash path hn) hq he
        (fun hdir events r u' h => (hrec v n hu (hdir ▸ he) events r u' h).2) hentry
      rw [if_pos rfl] at h
      have hlater : ∀ m ∈ names, m = dot ∨ m = dotDot ∨ (w.get (p ++ [m])).isSome := by
        intro m hm
        rw [hone.get_sibling fun hnm => hnd.1 (hnm ▸ hm)]
        exact hnames m (List.mem_cons_of_mem _ hm)
      obtain ⟨hr, hpr, hgone⟩ := ih hnd.2 (hone.prunedBelow.trans hu) hlater h
      refine ⟨hr, hpr.trans hone.prunedBelow, fun m hm => ?_⟩
      rcases List.mem_cons.1 hm with rfl | hm
      · exact Tree.get_eq_none_of_le hpr.le (hone.gone rfl)
      · exact hgone m hm

/-- `readdir` yields no name twice. -/
theorem nodup_listing (t : Tree) (p : Pos) : (listing t p).Nodup := by
  have hdots : ∀ n ∈ t.names p, ¬ (n = dot ∨ n = dotDot) := by
    intro n hn
    obtain ⟨e, he⟩ := Option.isSome_iff_exists.1 (Tree.mem_names.1 hn)
    exact not_dots_of_validName (Tree.validName_of_get he)
  refine List.nodup_cons.2 ⟨fun h => ?_, List.nodup_cons.2 ⟨fun h => ?_, t.names_nodup p⟩⟩
  · rcases List.mem_cons.1 h with h | h
    · exact absurd h (by decide)
    · exact hdots dot h (Or.inl rfl)
  · exact hdots dotDot h (Or.inr rfl)

/-- **With no faults a directory goes**, when its path ends in its name and leads to it whatever is
left below. -/
theorem removeDirectory_ends_zero (depth : Nat) {t t' : Tree} {path : Bytes} {p : Pos}
    (hends : ∃ cs n, components path = cs ++ [n] ∧ ValidName n) (hst : Steady cwd t path p)
    (hd : t.get p = some .dir) (hdepth : DepthBelow t p depth)
    (h : Ends (act cwd false) (removeDirectory depth path) t events r t') : r = 0 := by
  induction depth generalizing t path p events r t' with
  | zero => exact absurd hdepth (not_depthBelow_zero hd)
  | succ depth ih =>
    have hp := hst.resolve_eq
    have hpath := ne_nil_of_resolve hp
    replace h := ends_call_iff.1 h
    obtain ⟨opened, v, rest, rfl, ⟨rfl, names, hnames, hopened⟩, h⟩ := h
    have ho : (posix cwd).opendir v path = some (listing v p) :=
      posix.opendir_eq_some_iff.2 ⟨p, hp, hd, rfl⟩
    obtain rfl : names = some (listing v p) := hnames.eq.trans ho
    cases hopened with
    | some hperm =>
      rename_i directory
      replace h := ends_bind_iff.1 h
      obtain ⟨before, after, r', u, rfl, hloop, h⟩ := h
      have hnodup : directory.names.Nodup := hperm.nodup_iff.2 (nodup_listing v p)
      obtain ⟨rfl, hpr, hgone⟩ := removeEntries_ends_zero hpath hst
        (fun u n hu hdn events r u' h => by
          have hst' := (hst.pruned hu).snoc hpath hdn
          have hbelow := hdepth.snoc hu.le n
          exact ⟨outcome_removeDirectory depth hst'.resolve_eq hdn hbelow h,
            ih (ends_append_slash path (Tree.validName_of_get hdn)) hst' hdn hbelow h⟩)
        hnodup (.refl p v) (fun n hn => mem_listing_iff.1 (hperm.mem_iff.1 hn)) hloop
      -- nothing is left in the directory, so `rmdir` takes it
      obtain ⟨w, hw⟩ := rmdir_succeeds hends (hst u hpr) (hpr.get_self.trans hd)
        (names_eq_nil_of_pruned hpr fun n hn =>
          hgone n (hperm.mem_iff.2 (mem_listing_iff.2 (Or.inr (Or.inr (Tree.mem_names.1 hn))))))
      replace h := ends_call_iff.1 h
      obtain ⟨_, v, rest, rfl, rfl, h⟩ := h
      rw [if_pos rfl] at h
      replace h := ends_call_iff.1 h
      obtain ⟨x, v, rest, rfl, ⟨removed, hrm, hx⟩, h⟩ := h
      obtain ⟨rfl, rfl, rfl⟩ := ends_done_iff.1 h
      obtain rfl : removed = some w := hrm.eq.trans hw
      exact (Prod.mk.inj hx).1

end Success

/-! ## The calls of a removal -/

/-- The calls that `remove_directory` makes. -/
def Removing : Call → Prop
  | .opendir _ | .readdir _ | .closedir _ | .malloc _ | .stat _ | .unlink _ | .rmdir _ => True
  | _ => False

theorem removing_removeEntry {recurse : Bytes → Part Int} {buf : Bytes}
    (h : (recurse buf).Always fun a _ => Removing a) :
    (removeEntry recurse buf).Always fun a _ => Removing a := by
  refine ⟨trivial, fun allocated => ?_⟩
  cases allocated with
  | false => trivial
  | true =>
    refine ⟨trivial, fun entry => ?_⟩
    cases entry with
    | none => trivial
    | some entry =>
      cases entry with
      | dir => exact h
      | file content => exact ⟨trivial, fun _ => trivial⟩

theorem removing_removeEntries {recurse : Bytes → Part Int}
    (h : ∀ path, (recurse path).Always fun a _ => Removing a) (directory : Option Nat)
    (path : Bytes) (names : List Bytes) :
    (removeEntries recurse directory path names).Always fun a _ => Removing a := by
  induction names with
  | nil => exact ⟨trivial, fun _ => trivial⟩
  | cons n names ih =>
    refine ⟨trivial, fun _ => ?_⟩
    by_cases hdots : n = dot ∨ n = dotDot
    · rw [if_pos hdots]
      exact ih
    · rw [if_neg hdots]
      refine always_bind (removing_removeEntry (h _)) fun r => ?_
      by_cases h0 : r = 0
      · rw [if_pos h0]
        exact ih
      · rw [if_neg h0]
        trivial

theorem removing_removeDirectory (depth : Nat) (path : Bytes) :
    (removeDirectory depth path).Always fun a _ => Removing a := by
  induction depth generalizing path with
  | zero => trivial
  | succ depth ih =>
    refine ⟨trivial, fun opened => ?_⟩
    cases opened with
    | none => trivial
    | some directory =>
      refine always_bind (removing_removeEntries ih _ _ _) fun r => ⟨trivial, fun _ => ?_⟩
      by_cases h0 : r = 0
      · rw [if_pos h0]
        exact ⟨trivial, fun _ => trivial⟩
      · rw [if_neg h0]
        trivial

/-- No call of a removal gets stuck. -/
theorem exists_act (cwd : Pos) (faults : Bool) (a : Call) (ha : Removing a) (t : Tree) :
    ∃ x t', act cwd faults a t x t' := by
  cases a with
  | opendir path =>
    cases ho : (posix cwd).opendir t path with
    | none => exact ⟨none, t, rfl, none, Or.inl ho.symm, .none⟩
    | some names => exact ⟨some ⟨0, names⟩, t, rfl, some names, Or.inl ho.symm, .some (.refl _)⟩
  | readdir directory => exact ⟨(), t, rfl⟩
  | closedir directory => exact ⟨(), t, rfl⟩
  | malloc path => exact ⟨true, t, rfl, Or.inl rfl⟩
  | stat path => exact ⟨_, t, rfl, Or.inl rfl⟩
  | unlink path => exact ⟨_, _, _, Or.inl rfl, rfl⟩
  | rmdir path => exact ⟨_, _, _, Or.inl rfl, rfl⟩
  | _ => exact ha.elim

theorem MayFail.of_le {α : Type} {faults : Bool} {own answer : Option α}
    (hle : ∀ r, answer = some r → own = some r) (heq : faults = false → answer = own) :
    MayFail faults own answer := by
  cases faults with
  | false => exact Or.inl (heq rfl)
  | true =>
    cases answer with
    | none => exact Or.inr ⟨rfl, rfl⟩
    | some r => exact Or.inl (hle r rfl).symm

section Exec

variable {env : Env} {cwd : Pos} {faults : Bool} (hc : env.calls ≤ posix cwd)
  (hfaults : faults = false → env.calls = posix cwd)
include hc hfaults

/-- A POSIX system, on which any call may fail if there are faults, answers as `act` allows. -/
theorem act_of_exec (a : Call) (ha : Removing a) (w : World) :
    act cwd faults a w.store.tree (exec env a w).1 (exec env a w).2.store.tree := by
  cases a with
  | opendir path =>
    have hmay : MayFail faults ((posix cwd).opendir w.store.tree path)
        (env.calls.opendir w.store.tree path) :=
      .of_le (fun _ h => SysCalls.opendir_of_le hc h) fun h => by rw [hfaults h]
    cases ho : env.calls.opendir w.store.tree path with
    | none =>
      rw [exec_opendir_none ho]
      exact ⟨rfl, none, ho ▸ hmay, .none⟩
    | some names =>
      rw [exec_opendir_some ho]
      exact ⟨rfl, some names, ho ▸ hmay, .some (.refl _)⟩
  | readdir directory => rfl
  | closedir directory => rfl
  | malloc path =>
    refine ⟨rfl, ?_⟩
    cases hf : faults with
    | true => exact Or.inr rfl
    | false =>
      simp only [exec, hfaults hf]
      exact Or.inl rfl
  | stat path =>
    exact ⟨rfl, .of_le (fun _ h => SysCalls.stat_of_le hc h) fun h => by rw [← hfaults h]; rfl⟩
  | unlink path =>
    refine ⟨env.calls.unlink w.store.tree path,
      .of_le (fun _ h => SysCalls.unlink_of_le hc h) fun h => by rw [hfaults h], ?_⟩
    simp only [exec]
    cases env.calls.unlink w.store.tree path <;> rfl
  | rmdir path =>
    refine ⟨env.calls.rmdir w.store.tree path,
      .of_le (fun _ h => SysCalls.rmdir_of_le hc h) fun h => by rw [hfaults h], ?_⟩
    simp only [exec]
    cases env.calls.rmdir w.store.tree path <;> rfl
  | _ => exact ha.elim

/-- The runs of a removal on such a system are among its outcomes. -/
theorem ends_of_exec (depth : Nat) (path : Bytes) (w : World) :
    let run := (removeDirectory depth path).run (exec env) w
    Ends (act cwd faults) (removeDirectory depth path) w.store.tree
      ((removeDirectory depth path).trace (exec env) w) run.1 run.2.store.tree :=
  .of_run (f := fun w : World => w.store.tree) (act_of_exec hc hfaults)
    (removing_removeDirectory depth path) w

end Exec

/-! ## One subtree -/

/-- What is left of the tree, and what the removal answers for it. `t' ≤ t` says that every entry
that is left is as it was. -/
structure RemovesSubtree (t : Tree) (p : Pos) (events : List (Event Call.Answer)) (r : Int)
    (t' : Tree) : Prop where
  outside : ∀ q, ¬ p <+: q → t'.get q = t.get q
  zero_iff : r = 0 ↔ ∀ q, p <+: q → t'.get q = none
  unfailed : (∀ e ∈ events, failed e = false) → r = 0
  refused : r ≠ 0 → r = -1 ∧ t'.get p = some .dir ∧ t' ≤ t

theorem RemovalOutcome.removesSubtree {t t' : Tree} {p : Pos} {events : List (Event Call.Answer)}
    {r : Int} (hd : t.get p = some .dir) (h : RemovalOutcome t p events r t') :
    RemovesSubtree t p events r t' where
  outside := h.frame
  zero_iff := by
    constructor
    · intro h0 q hpq
      have hgone := h.gone h0
      by_cases hne : p = q
      · exact hne ▸ hgone
      · cases hg : t'.get q with
        | none => rfl
        | some e =>
          -- what is below `p` is in a directory there
          rw [Tree.get_of_isPrefix hpq hg hne] at hgone
          cases hgone
    · intro hgone
      by_contra h0
      have hkept := (hgone p (List.prefix_refl p)).symm.trans (h.kept h0)
      rw [hd] at hkept
      cases hkept
  unfailed hevents := by
    by_contra h0
    obtain ⟨e, he, hfailed⟩ := h.blame h0
    rw [hevents e he] at hfailed
    cases hfailed
  refused h0 := ⟨h.result.resolve_left h0, (h.kept h0).trans hd, h.le⟩

/-- **`remove_directory` removes one subtree**, for every directory, whichever calls fail and in
whatever order its entries come. No run gets stuck; above the size of the tree the depth is never
used up, so that more of it changes no run; and each run removes the subtree or fails and leaves its
root. With no faults the directory goes, unless its path ends in a dot or leads through what is
removed, where `rmdir` or `stat` fails for that. -/
theorem removeDirectory_removesSubtree {cwd : Pos} {t : Tree} {path : Bytes} {p : Pos}
    (hp : resolve cwd t path = some p) (hd : t.get p = some .dir) {depth : Nat}
    (hdepth : t.entries.length < depth) :
    (∃ events r t', Ends (act cwd true) (removeDirectory depth path) t events r t') ∧
    (∀ events r t', Ends (act cwd true) (removeDirectory (depth + 1) path) t events r t' ↔
      Ends (act cwd true) (removeDirectory depth path) t events r t') ∧
    (∀ events r t', Ends (act cwd true) (removeDirectory depth path) t events r t' →
      RemovesSubtree t p events r t') ∧
    (Steady cwd t path p → (∃ cs n, components path = cs ++ [n] ∧ ValidName n) →
      ∀ events r t', Ends (act cwd false) (removeDirectory depth path) t events r t' → r = 0) := by
  have hbelow := DepthBelow.of_length_lt hdepth p
  refine ⟨?_, fun events r t' => ?_, fun events r t' h => ?_, fun hst hends events r t' h => ?_⟩
  · exact exists_ends (exists_act cwd true) (removing_removeDirectory depth path) t
  · exact ends_removeDirectory_succ depth hp hd hbelow
  · exact (outcome_removeDirectory depth hp hd hbelow h).removesSubtree hd
  · exact removeDirectory_ends_zero depth hends hst hd hbelow h

/-- The directory of alice goes, with her two files in it. -/
theorem alice_removesSubtree :
    let path := userPath (cstring "alice")
    let w := aliceBobWorld [] fun _ => .whole
    let run := (removeDirectory 5 path).run (exec posixEnv) w
    RemovesSubtree w.store.tree (usersPos [] ++ [cstring "alice"])
      ((removeDirectory 5 path).trace (exec posixEnv) w) run.1 run.2.store.tree ∧ run.1 = 0 := by
  have hname : ValidName (cstring "alice") := by decide
  have hd : aliceBobStore.tree.get (usersPos [] ++ [cstring "alice"]) = some .dir := by
    decide +kernel
  have hdepth : aliceBobStore.tree.entries.length < 5 := by decide +kernel
  obtain ⟨-, -, hremoves, hsucceeds⟩ :=
    removeDirectory_removesSubtree (resolve_userPath hname hd) hd hdepth
  constructor
  · exact hremoves _ _ _
      (ends_of_exec (SysCalls.le_refl _) (fun _ => rfl) 5 _ (aliceBobWorld [] fun _ => .whole))
  · exact hsucceeds (steady_userPath hname hd) (ends_userPath hname) _ _ _
      (ends_of_exec (SysCalls.le_refl _) (fun _ => rfl) 5 _ (aliceBobWorld [] fun _ => .whole))

end DistributedSystems.Lab.Traced
