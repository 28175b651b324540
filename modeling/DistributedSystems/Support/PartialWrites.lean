import Mathlib.Data.List.Basic

/-!
# Partial writes

A message written in chunks, one call for each, where a call may take all of its elements, only the
first few, or fail. What arrives is the takings in order: the whole message when every chunk is
taken whole (`onWire_eq_message_iff`), and a prefix of it when nothing is taken after the first
chunk that is not, or only what happens to repeat the missing elements (`onWire_prefix_iff`).
-/

namespace DistributedSystems.Support

variable {α : Type}

/-- A part of a message and how many elements its call takes; none is a call that fails. A call that
is not made takes 0. -/
structure Chunk (α : Type) where
  data : List α
  taken : Option Nat
deriving DecidableEq, Repr

namespace Chunk

/-- What the call takes. -/
def put (c : Chunk α) : List α := c.data.take (c.taken.getD 0)

def Whole (c : Chunk α) : Prop := c.put = c.data

def Failed (c : Chunk α) : Prop := c.taken = none

instance [DecidableEq α] (c : Chunk α) : Decidable c.Whole :=
  inferInstanceAs (Decidable (c.put = c.data))

instance (c : Chunk α) : Decidable c.Failed := inferInstanceAs (Decidable (c.taken = none))

/-- A chunk whose call is not made. -/
def unsent (data : List α) : Chunk α := ⟨data, some 0⟩

@[simp] theorem put_unsent (data : List α) : (unsent data).put = [] := rfl

@[simp] theorem not_failed_unsent (data : List α) : ¬ (unsent data).Failed := nofun

theorem put_prefix (c : Chunk α) : c.put <+: c.data := List.take_prefix _ _

end Chunk

def message (cs : List (Chunk α)) : List α := cs.flatMap Chunk.data

def onWire (cs : List (Chunk α)) : List α := cs.flatMap Chunk.put

@[simp] theorem message_nil : message ([] : List (Chunk α)) = [] := rfl

@[simp] theorem message_cons (c : Chunk α) (cs : List (Chunk α)) :
    message (c :: cs) = c.data ++ message cs := rfl

@[simp] theorem onWire_nil : onWire ([] : List (Chunk α)) = [] := rfl

@[simp] theorem onWire_cons (c : Chunk α) (cs : List (Chunk α)) :
    onWire (c :: cs) = c.put ++ onWire cs := rfl

/-- Each call takes elements that are owed next: those that the calls before it have not taken, then
its own. -/
def Due : List α → List (Chunk α) → Prop
  | _, [] => True
  | owed, c :: cs =>
    c.put <+: owed ++ c.data ∧ Due ((owed ++ c.data).drop c.put.length) cs

theorem due_iff (owed : List α) (cs : List (Chunk α)) :
    Due owed cs ↔ onWire cs <+: owed ++ message cs := by
  induction cs generalizing owed with
  | nil => simp [Due]
  | cons c cs ih =>
    rw [Due, ih, onWire_cons, message_cons, ← List.append_assoc]
    constructor
    · rintro ⟨⟨rest, hrest⟩, hcs⟩
      rw [← hrest, List.drop_left] at hcs
      rw [← hrest, List.append_assoc]
      exact (List.prefix_append_right_inj _).2 hcs
    · intro h
      -- what the call takes is no longer than its own data
      have hput : c.put <+: owed ++ c.data := by
        refine List.prefix_of_prefix_length_le ((List.prefix_append _ _).trans h)
          (List.prefix_append _ _) ?_
        have hlength := c.put_prefix.length_le
        rw [List.length_append]
        omega
      obtain ⟨rest, hrest⟩ := hput
      rw [← hrest, List.append_assoc] at h
      refine ⟨⟨rest, hrest⟩, ?_⟩
      rw [← hrest, List.drop_left]
      exact (List.prefix_append_right_inj _).1 h

theorem length_onWire_le (cs : List (Chunk α)) : (onWire cs).length ≤ (message cs).length := by
  induction cs with
  | nil => exact Nat.le_refl _
  | cons c cs ih =>
    have hput := c.put_prefix.length_le
    simp only [onWire_cons, message_cons, List.length_append]
    omega

theorem onWire_eq_message_iff (cs : List (Chunk α)) :
    onWire cs = message cs ↔ ∀ c ∈ cs, c.Whole := by
  induction cs with
  | nil => simp
  | cons c cs ih =>
    rw [List.forall_mem_cons, onWire_cons, message_cons, ← ih]
    constructor
    · intro h
      -- neither part is longer than what it stands for, so neither is shorter
      have hput := c.put_prefix.length_le
      have hrest := length_onWire_le cs
      have hlength := congrArg List.length h
      simp only [List.length_append] at hlength
      exact List.append_inj h (by omega)
    · rintro ⟨hc, hcs⟩
      rw [hcs, hc]

/-! ## The first call that is not whole -/

section Breaks

variable [DecidableEq α]

/-- No call takes anything after the first one that does not take its chunk whole. -/
def Stops : List (Chunk α) → Prop
  | [] => True
  | c :: cs => if c.Whole then Stops cs else ∀ d ∈ cs, d.put = []

/-- The calls after the first one that does not take its chunk whole take something, and what they
take of their own data repeats what is missing: each takes elements that are owed next. -/
def Repeats : List (Chunk α) → Prop
  | [] => False
  | c :: cs =>
    if c.Whole then Repeats cs
    else (∃ d ∈ cs, d.put ≠ []) ∧ Due (c.data.drop c.put.length) cs

theorem stops_of_whole {cs : List (Chunk α)} (h : ∀ c ∈ cs, c.Whole) : Stops cs := by
  induction cs with
  | nil => trivial
  | cons c cs ih =>
    rw [List.forall_mem_cons] at h
    rw [Stops, if_pos h.1]
    exact ih h.2

/-- What arrives is a prefix of the message when nothing follows the first gap, or what follows it
fills it by repeating it. -/
theorem onWire_prefix_iff (cs : List (Chunk α)) :
    onWire cs <+: message cs ↔ Stops cs ∨ Repeats cs := by
  induction cs with
  | nil => simp [Stops]
  | cons c cs ih =>
    rw [onWire_cons, message_cons]
    unfold Stops Repeats
    split
    · rename_i hwhole
      rw [hwhole, List.prefix_append_right_inj]
      exact ih
    · have hdata : c.data = c.put ++ c.data.drop c.put.length := by
        obtain ⟨rest, hrest⟩ := c.put_prefix
        rw [← hrest, List.drop_left]
      rw [hdata, List.append_assoc, List.prefix_append_right_inj, ← due_iff, ← hdata]
      by_cases htaken : ∃ d ∈ cs, d.put ≠ []
      · have hnot : ¬ ∀ d ∈ cs, d.put = [] := by
          obtain ⟨d, hd, hput⟩ := htaken
          intro h
          exact hput (h d hd)
        simp only [htaken, hnot, true_and, false_or]
      · have hall : ∀ d ∈ cs, d.put = [] := by
          intro d hd
          by_contra hput
          exact htaken ⟨d, hd, hput⟩
        refine iff_of_true ?_ (Or.inl hall)
        rw [due_iff, onWire, List.flatMap_eq_nil_iff.2 hall]
        exact List.nil_prefix

/-- What arrives is a prefix of the message, and all of it when no call has failed. -/
def Intact (cs : List (Chunk α)) : Prop :=
  onWire cs <+: message cs ∧ ((∀ c ∈ cs, ¬ c.Failed) → onWire cs = message cs)

/-- Every call takes its chunk whole, or one of them fails and no call takes anything after the
first that is not whole. -/
def Unbroken (cs : List (Chunk α)) : Prop :=
  (∀ c ∈ cs, c.Whole) ∨ (∃ c ∈ cs, c.Failed) ∧ Stops cs

/-- **When a message is intact.** Apart from calls that happen to repeat what is missing, nothing
may follow the first gap. -/
theorem intact_iff (cs : List (Chunk α)) :
    Intact cs ↔ Unbroken cs ∨ (∃ c ∈ cs, c.Failed) ∧ Repeats cs := by
  rw [Intact, Unbroken, onWire_eq_message_iff, onWire_prefix_iff]
  constructor
  · rintro ⟨hwire, hwhole⟩
    by_cases h : ∃ c ∈ cs, c.Failed
    · cases hwire with
      | inl hstops => exact Or.inl (Or.inr ⟨h, hstops⟩)
      | inr hrepeats => exact Or.inr ⟨h, hrepeats⟩
    · exact Or.inl (Or.inl (hwhole fun c hc hfailed => h ⟨c, hc, hfailed⟩))
  · rintro ((hwhole | ⟨⟨c, hc, hfailed⟩, hstops⟩) | ⟨⟨c, hc, hfailed⟩, hrepeats⟩)
    · exact ⟨Or.inl (stops_of_whole hwhole), fun _ => hwhole⟩
    · exact ⟨Or.inl hstops, fun h => absurd hfailed (h c hc)⟩
    · exact ⟨Or.inr hrepeats, fun h => absurd hfailed (h c hc)⟩

end Breaks

end DistributedSystems.Support
