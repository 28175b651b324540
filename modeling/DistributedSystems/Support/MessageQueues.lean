import Mathlib.Data.Option.Basic
import Mathlib.Logic.Function.Basic

/-!
# Named message queues

Queues of messages under names, as POSIX has them. A descriptor refers to a queue and not to its
name, so a queue whose name has been taken away keeps its messages for whoever has opened it, and
the next queue created under that name is another one. A queue takes at most `maxmsg` messages.
-/

namespace DistributedSystems.Support

/-- `named` are the names in use, with the queue that each stands for, and `fresh` is the descriptor
of the next queue that is created. -/
structure Queues (ν μ : Type) where
  named : ν → Option Nat
  contents : Nat → List μ
  fresh : Nat
  named_lt : ∀ {name fd}, named name = some fd → fd < fresh
  named_inj : ∀ {name name' fd}, named name = some fd → named name' = some fd → name = name'

namespace Queues

variable {ν μ : Type} (q : Queues ν μ)

def empty : Queues ν μ where
  named _ := none
  contents _ := []
  fresh := 0
  named_lt h := by cases h
  named_inj h := by cases h

/-- A new queue without messages under a name. -/
def create [DecidableEq ν] (name : ν) : Queues ν μ where
  named := Function.update q.named name (some q.fresh)
  contents := Function.update q.contents q.fresh []
  fresh := q.fresh + 1
  named_lt := by
    intro n fd h
    by_cases hn : n = name
    · subst hn
      rw [Function.update_self] at h
      obtain rfl := Option.some.inj h
      exact Nat.lt_succ_self _
    · rw [Function.update_of_ne hn] at h
      exact Nat.lt_succ_of_lt (q.named_lt h)
  named_inj := by
    intro n n' fd h h'
    by_cases hn : n = name <;> by_cases hn' : n' = name
    · rw [hn, hn']
    · subst hn
      rw [Function.update_self] at h
      rw [Function.update_of_ne hn'] at h'
      obtain rfl := Option.some.inj h
      exact absurd (q.named_lt h') (Nat.lt_irrefl _)
    · subst hn'
      rw [Function.update_self] at h'
      rw [Function.update_of_ne hn] at h
      obtain rfl := Option.some.inj h'
      exact absurd (q.named_lt h) (Nat.lt_irrefl _)
    · rw [Function.update_of_ne hn] at h
      rw [Function.update_of_ne hn'] at h'
      exact q.named_inj h h'

/-- `mq_open` with `O_CREAT`: the queue of the name, which is created if there is none. -/
def openCreate [DecidableEq ν] (name : ν) : Nat × Queues ν μ :=
  match q.named name with
  | some fd => (fd, q)
  | none => (q.fresh, q.create name)

/-- `mq_open` of a queue that must be there. -/
def openExisting (name : ν) : Option Nat := q.named name

/-- `mq_send`. `none` while the queue is full. -/
def send (maxmsg fd : Nat) (m : μ) : Option (Queues ν μ) :=
  if (q.contents fd).length < maxmsg then
    some { q with contents := Function.update q.contents fd (q.contents fd ++ [m]) }
  else none

/-- `mq_receive`: the oldest message. `none` while there is none. -/
def receive (fd : Nat) : Option (μ × Queues ν μ) :=
  match q.contents fd with
  | [] => none
  | m :: rest => some (m, { q with contents := Function.update q.contents fd rest })

/-- `mq_unlink`: the name is free again. `none` if it was. -/
def unlink [DecidableEq ν] (name : ν) : Option (Queues ν μ) :=
  match q.named name with
  | none => none
  | some _ => some { q with
      named := Function.update q.named name none
      named_lt := by
        intro n fd h
        by_cases hn : n = name
        · rw [hn, Function.update_self] at h
          cases h
        · rw [Function.update_of_ne hn] at h
          exact q.named_lt h
      named_inj := by
        intro n n' fd h h'
        by_cases hn : n = name
        · rw [hn, Function.update_self] at h
          cases h
        by_cases hn' : n' = name
        · rw [hn', Function.update_self] at h'
          cases h'
        rw [Function.update_of_ne hn] at h
        rw [Function.update_of_ne hn'] at h'
        exact q.named_inj h h' }

/-- The messages in the queue that a name stands for. -/
def under (name : ν) : List μ := (q.named name).elim [] q.contents

/-! ## What each operation leaves -/

variable {q} {q' : Queues ν μ} {name n : ν} {fd maxmsg : Nat} {m : μ}

theorem under_of_named (h : q.named name = some fd) : q.under name = q.contents fd := by
  rw [under, h]
  rfl

theorem named_send (h : q.send maxmsg fd m = some q') : q'.named = q.named := by
  unfold send at h
  split at h
  · obtain rfl := Option.some.inj h
    rfl
  · cases h

theorem contents_send (h : q.send maxmsg fd m = some q') :
    q'.contents = Function.update q.contents fd (q.contents fd ++ [m]) := by
  unfold send at h
  split at h
  · obtain rfl := Option.some.inj h
    rfl
  · cases h

theorem under_send_self (h : q.send maxmsg fd m = some q') (hname : q.named name = some fd) :
    q'.under name = q.under name ++ [m] := by
  rw [under_of_named (by rw [named_send h, hname]), under_of_named hname, contents_send h,
    Function.update_self]

/-- The queue of another name is left alone. -/
theorem under_send_of_ne (h : q.send maxmsg fd m = some q') (hname : q.named name = some fd)
    (hn : n ≠ name) : q'.under n = q.under n := by
  rw [under, under, named_send h, contents_send h]
  cases hq : q.named n with
  | none => rfl
  | some fd' =>
    have hne : fd' ≠ fd := by
      rintro rfl
      exact hn (q.named_inj hq hname)
    exact Function.update_of_ne hne _ _

theorem named_receive (h : q.receive fd = some (m, q')) : q'.named = q.named := by
  unfold receive at h
  split at h
  · cases h
  · obtain ⟨-, rfl⟩ := Prod.mk.inj (Option.some.inj h)
    rfl

theorem contents_receive (h : q.receive fd = some (m, q')) :
    ∃ rest, q.contents fd = m :: rest ∧ q'.contents = Function.update q.contents fd rest := by
  unfold receive at h
  split at h
  · cases h
  · rename_i m' rest hcontents
    obtain ⟨rfl, rfl⟩ := Prod.mk.inj (Option.some.inj h)
    exact ⟨rest, hcontents, rfl⟩

theorem under_receive_self (h : q.receive fd = some (m, q')) (hname : q.named name = some fd) :
    q.under name = m :: q'.under name := by
  obtain ⟨rest, hcontents, hq'⟩ := contents_receive h
  rw [under_of_named hname, under_of_named (by rw [named_receive h, hname]), hq', hcontents,
    Function.update_self]

theorem under_receive_of_ne (h : q.receive fd = some (m, q')) (hname : q.named name = some fd)
    (hn : n ≠ name) : q'.under n = q.under n := by
  obtain ⟨rest, -, hq'⟩ := contents_receive h
  rw [under, under, named_receive h, hq']
  cases hq : q.named n with
  | none => rfl
  | some fd' =>
    have hne : fd' ≠ fd := by
      rintro rfl
      exact hn (q.named_inj hq hname)
    exact Function.update_of_ne hne _ _

section Names

variable [DecidableEq ν]

/-- Opening a queue makes no message come or go. -/
theorem under_openCreate : (q.openCreate name).2.under n = q.under n := by
  unfold openCreate
  cases hname : q.named name with
  | some fd => rfl
  | none =>
    by_cases hn : n = name
    · subst hn
      simp [under, create, hname]
    · cases hq : q.named n with
      | none => simp [under, create, hn, hq]
      | some fd =>
        have hne : fd ≠ q.fresh := Nat.ne_of_lt (q.named_lt hq)
        simp [under, create, hn, hq, hne]

theorem named_openCreate_self : (q.openCreate name).2.named name = some (q.openCreate name).1 := by
  unfold openCreate
  cases hname : q.named name with
  | some fd => exact hname
  | none => simp [create]

theorem named_openCreate_of_ne (hn : n ≠ name) :
    (q.openCreate name).2.named n = q.named n := by
  unfold openCreate
  cases hname : q.named name with
  | some fd => rfl
  | none => exact Function.update_of_ne hn _ _

/-- A name that is in use goes on standing for the same queue. -/
theorem named_openCreate (h : q.named n = some fd) : (q.openCreate name).2.named n = some fd := by
  by_cases hn : n = name
  · subst hn
    simp only [openCreate, h]
  · rw [named_openCreate_of_ne hn, h]

theorem named_unlink (h : q.unlink name = some q') (hn : n ≠ name) : q'.named n = q.named n := by
  unfold unlink at h
  split at h
  · cases h
  · obtain rfl := Option.some.inj h
    exact Function.update_of_ne hn _ _

theorem under_unlink_self (h : q.unlink name = some q') : q'.under name = [] := by
  unfold unlink at h
  split at h
  · cases h
  · obtain rfl := Option.some.inj h
    simp [under]

theorem under_unlink_of_ne (h : q.unlink name = some q') (hn : n ≠ name) :
    q'.under n = q.under n := by
  have hcontents : q'.contents = q.contents := by
    unfold unlink at h
    split at h
    · cases h
    · obtain rfl := Option.some.inj h
      rfl
  rw [under, under, named_unlink h hn, hcontents]

end Names

end Queues

end DistributedSystems.Support
