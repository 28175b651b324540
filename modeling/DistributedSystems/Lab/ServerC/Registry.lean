import Mathlib.Logic.Function.Basic

/-!
# The registry behind the server

What the server is for, without its paths, its list and its buffers: a `Registry` of the users, of
the texts that each has published under which name, and of where the connected ones can be reached.
-/

namespace DistributedSystems.Lab

open Function

/-! ## Registries -/

/-- `published` are the texts of a registered user under the names of its files, and `connected` is
the place where a connected user can be reached. -/
structure Registry (User File Text Place : Type) where
  published : User → Option (File → Option Text)
  connected : User → Option Place

namespace Registry

variable {User File Text Place : Type}

inductive Change (User File Text Place : Type)
  | register (user : User)
  | unregister (user : User)
  /-- The place may be unknown. -/
  | connect (user : User) (place : Option Place)
  | disconnect (user : User)
  | publish (user : User) (file : File) (text : Text)
  | delete (user : User) (file : File)

inductive Answer
  | done
  | registered
  | notRegistered
  | connected
  | notConnected
  | published
  | notPublished
  | nowhere
  | nobody
deriving DecidableEq

/-- Nobody is registered. -/
def empty : Registry User File Text Place := ⟨fun _ => none, fun _ => none⟩

/-- Everybody is disconnected. -/
def restarted (r : Registry User File Text Place) : Registry User File Text Place :=
  { r with connected := fun _ => none }

def apply [DecidableEq User] [DecidableEq File] (r : Registry User File Text Place) :
    Change User File Text Place → Answer × Registry User File Text Place
  | .register u =>
    match r.published u with
    | some _ => (.registered, r)
    | none => (.done, { r with published := update r.published u (some fun _ => none) })
  | .unregister u =>
    match r.published u with
    | none => (.notRegistered, r)
    | some _ =>
      (.done, { published := update r.published u none, connected := update r.connected u none })
  | .connect u place =>
    match r.published u, r.connected u, place with
    | none, _, _ => (.notRegistered, r)
    | some _, some _, _ => (.connected, r)
    | some _, none, none => (.nowhere, r)
    | some _, none, some a => (.done, { r with connected := update r.connected u (some a) })
  | .disconnect u =>
    match r.published u, r.connected u with
    | none, _ => (.notRegistered, r)
    | some _, none => (.notConnected, r)
    | some _, some _ => (.done, { r with connected := update r.connected u none })
  | .publish u f text =>
    match r.published u, r.connected u with
    | none, _ => (.notRegistered, r)
    | some _, none => (.notConnected, r)
    | some files, some _ =>
      match files f with
      | some _ => (.published, r)
      | none =>
        (.done, { r with published := update r.published u (some (update files f (some text))) })
  | .delete u f =>
    match r.published u with
    | none => (.nobody, r)
    | some files =>
      match files f with
      | none => (.notPublished, r)
      | some _ =>
        (.done, { r with published := update r.published u (some (update files f none)) })

/-- Only registered users are connected. -/
def Backed (r : Registry User File Text Place) : Prop :=
  ∀ u, r.published u = none → r.connected u = none

theorem backed_restarted (r : Registry User File Text Place) : r.restarted.Backed := fun _ _ => rfl

variable [DecidableEq User] {r : Registry User File Text Place} {u : User}

/-- What a registered user publishes and deletes does not matter. -/
theorem Backed.publishes (h : r.Backed) (files : File → Option Text) :
    Backed { r with published := update r.published u (some files) } := by
  intro v hv
  dsimp only at hv ⊢
  by_cases hvu : v = u
  · rw [hvu, update_self] at hv
    cases hv
  · rw [update_of_ne hvu] at hv
    exact h v hv

theorem Backed.disconnects (h : r.Backed) :
    Backed { r with connected := update r.connected u none } := by
  intro v hv
  dsimp only at hv ⊢
  by_cases hvu : v = u
  · rw [hvu]
    exact update_self u none r.connected
  · rw [update_of_ne hvu]
    exact h v hv

theorem Backed.apply [DecidableEq File] (h : r.Backed) (change : Change User File Text Place) :
    (r.apply change).2.Backed := by
  cases change with
  | register u =>
    simp only [Registry.apply]
    cases r.published u with
    | some files => exact h
    | none => exact h.publishes _
  | unregister u =>
    simp only [Registry.apply]
    cases r.published u with
    | none => exact h
    | some files =>
      intro v hv
      dsimp only at hv ⊢
      by_cases hvu : v = u
      · rw [hvu]
        exact update_self u none r.connected
      · rw [update_of_ne hvu] at hv ⊢
        exact h v hv
  | connect u place =>
    simp only [Registry.apply]
    cases hu : r.published u with
    | none => exact h
    | some files =>
      cases r.connected u with
      | some a => exact h
      | none =>
        cases place with
        | none => exact h
        | some a =>
          intro v hv
          dsimp only at hv ⊢
          by_cases hvu : v = u
          · rw [hvu, hu] at hv
            cases hv
          · rw [update_of_ne hvu]
            exact h v hv
  | disconnect u =>
    simp only [Registry.apply]
    cases r.published u with
    | none => exact h
    | some files =>
      cases r.connected u with
      | none => exact h
      | some a => exact h.disconnects
  | publish u f text =>
    simp only [Registry.apply]
    cases r.published u with
    | none => exact h
    | some files =>
      cases r.connected u with
      | none => exact h
      | some a =>
        dsimp only
        cases files f with
        | some old => exact h
        | none => exact h.publishes _
  | delete u f =>
    simp only [Registry.apply]
    cases r.published u with
    | none => exact h
    | some files =>
      dsimp only
      cases files f with
      | none => exact h
      | some old => exact h.publishes _

end Registry

end DistributedSystems.Lab
