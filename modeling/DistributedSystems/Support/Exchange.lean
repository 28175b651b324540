import Mathlib.Data.List.Basic
import Mathlib.Tactic.Common

/-!
# Exchanging two neighbouring segments of an array in place

The shorter of the two segments changes places with the far end of the longer one, which leaves two
segments to exchange in what remains. Nothing but the two segments is touched, both keep their
order, and no index is out of bounds (`exchangeSegments_append`).
-/

namespace DistributedSystems.Support

variable {α : Type*}

/-- Two elements change places. There is no result where an index is out of bounds. -/
def swapAt (xs : List α) (i j : Nat) : Option (List α) := do
  let a ← xs[i]?
  let b ← xs[j]?
  return (xs.set i b).set j a

/-- The `len` elements from `i` on change places with those from `j` on, one after another. -/
def swapBlocks : Nat → List α → Nat → Nat → Option (List α)
  | 0, xs, _, _ => some xs
  | len + 1, xs, i, j => do
    let xs ← swapAt xs i j
    swapBlocks len xs (i + 1) (j + 1)

/-- The elements from `bottom` on change places with those from `middle` on, up to `top`. -/
def exchangeSegments (xs : List α) (bottom middle top : Nat) : Option (List α) :=
  if top > middle ∧ middle > bottom then
    if top - middle > middle - bottom then
      match swapBlocks (middle - bottom) xs bottom (top - (middle - bottom)) with
      | none => none
      | some xs => exchangeSegments xs bottom middle (top - (middle - bottom))
    else
      match swapBlocks (top - middle) xs bottom middle with
      | none => none
      | some xs => exchangeSegments xs (bottom + (top - middle)) middle top
  else some xs
termination_by top - bottom

theorem swapAt_append (before between after : List α) (a b : α) :
    swapAt (before ++ a :: (between ++ b :: after)) before.length
        (before.length + (between.length + 1)) =
      some (before ++ b :: (between ++ a :: after)) := by
  have hi : (before ++ a :: (between ++ b :: after))[before.length]? = some a := by simp
  have hj : (before ++ a :: (between ++ b :: after))[before.length + (between.length + 1)]? =
      some b := by
    rw [List.getElem?_append_right (by omega), Nat.add_sub_cancel_left, List.getElem?_cons_succ,
      List.getElem?_append_right (Nat.le_refl _), Nat.sub_self]
    rfl
  unfold swapAt
  rw [hi, hj]
  simp only [Option.bind_eq_bind, Option.bind_some, Option.pure_def, Option.some.injEq]
  rw [List.set_append_right _ _ (Nat.le_refl _), Nat.sub_self, List.set_cons_zero,
    List.set_append_right _ _ (by omega), Nat.add_sub_cancel_left, List.set_cons_succ,
    List.set_append_right _ _ (Nat.le_refl _), Nat.sub_self, List.set_cons_zero]

/-- Two blocks of one length change places. -/
theorem swapBlocks_append {first second : List α} (h : first.length = second.length)
    (before between after : List α) :
    swapBlocks first.length (before ++ first ++ between ++ second ++ after) before.length
        (before.length + first.length + between.length) =
      some (before ++ second ++ between ++ first ++ after) := by
  induction first generalizing second before between with
  | nil =>
    obtain rfl := List.length_eq_zero_iff.1 h.symm
    rfl
  | cons a first ih =>
    obtain ⟨b, second, rfl⟩ : ∃ b rest, second = b :: rest := by
      cases second with
      | nil => exact absurd h (by simp)
      | cons b rest => exact ⟨b, rest, rfl⟩
    have hswap : swapAt (before ++ a :: first ++ between ++ b :: second ++ after) before.length
        (before.length + (first.length + 1) + between.length) =
        some ((before ++ [b]) ++ first ++ (between ++ [a]) ++ second ++ after) := by
      have := swapAt_append before (first ++ between) (second ++ after) a b
      rw [List.length_append] at this
      simp only [List.append_assoc, List.cons_append, List.nil_append] at this ⊢
      rw [← this]
      congr 1
      omega
    have hlength : first.length = second.length := by simpa using h
    have hrest := ih hlength (before ++ [b]) (between ++ [a])
    rw [List.length_cons, swapBlocks, hswap]
    simp only [Option.bind_eq_bind, Option.bind_some]
    simp only [List.length_append, List.length_cons, List.length_nil] at hrest
    rw [show before.length + (first.length + 1) + between.length + 1 =
      before.length + (0 + 1) + first.length + (between.length + (0 + 1)) by omega, hrest]
    simp

/-- The two segments change places, each in its own order, and nothing else is touched. -/
theorem exchangeSegments_append (before low high after : List α) :
    exchangeSegments (before ++ low ++ high ++ after) before.length
        (before.length + low.length) (before.length + low.length + high.length) =
      some (before ++ high ++ low ++ after) := by
  -- by the length of what is left to exchange
  obtain ⟨n, hn⟩ : ∃ n, low.length + high.length = n := ⟨_, rfl⟩
  induction n using Nat.strongRecOn generalizing before low high after with
  | ind n ih =>
    rw [exchangeSegments]
    by_cases hne : before.length + low.length + high.length > before.length + low.length ∧
        before.length + low.length > before.length
    · rw [if_pos hne]
      by_cases hshort : high.length > low.length
      · -- the low segment goes to the end of the high one
        obtain ⟨near, far, rfl, hfar⟩ :
            ∃ near far, high = near ++ far ∧ low.length = far.length := by
          refine ⟨high.take (high.length - low.length), high.drop (high.length - low.length),
            (List.take_append_drop _ _).symm, ?_⟩
          rw [List.length_drop]
          omega
        rw [List.length_append] at hshort hn
        have hswap := swapBlocks_append hfar before near after
        have hrec := ih (far.length + near.length) (by omega) before far near (low ++ after) rfl
        rw [if_pos (by rw [List.length_append]; omega)]
        rw [show before.length + low.length - before.length = low.length by omega,
          show before.length + low.length + (near ++ far).length - low.length =
            before.length + low.length + near.length by rw [List.length_append]; omega,
          show before ++ low ++ (near ++ far) ++ after = before ++ low ++ near ++ far ++ after by
            simp only [List.append_assoc], hswap]
        simp only
        rw [hfar, show before ++ far ++ near ++ low ++ after =
          before ++ far ++ near ++ (low ++ after) by simp only [List.append_assoc], hrec]
        simp only [List.append_assoc]
      · -- the high segment goes to the start of the low one
        obtain ⟨near, far, rfl, hnear⟩ :
            ∃ near far, low = near ++ far ∧ near.length = high.length :=
          ⟨low.take high.length, low.drop high.length, (List.take_append_drop _ _).symm,
            by rw [List.length_take]; omega⟩
        rw [List.length_append] at hshort hn
        have hswap := swapBlocks_append hnear before far after
        have hrec := ih (far.length + near.length) (by omega) (before ++ high) far near after rfl
        rw [if_neg (by rw [List.length_append]; omega)]
        rw [show before.length + (near ++ far).length + high.length -
            (before.length + (near ++ far).length) = near.length by omega,
          show before ++ (near ++ far) ++ high ++ after = before ++ near ++ far ++ high ++ after by
            simp only [List.append_assoc],
          show before.length + (near ++ far).length = before.length + near.length + far.length by
            rw [List.length_append]; omega, hswap]
        simp only
        rw [List.length_append] at hrec
        rw [show before.length + near.length = before.length + high.length by omega,
          show before.length + high.length + far.length + high.length =
            before.length + high.length + far.length + near.length by omega, hrec]
        simp only [List.append_assoc]
    · rw [if_neg hne]
      -- one of the two is empty
      have hempty : low = [] ∨ high = [] := by
        cases low with
        | nil => exact .inl rfl
        | cons a low =>
          cases high with
          | nil => exact .inr rfl
          | cons b high =>
            simp only [List.length_cons] at hne
            omega
      rcases hempty with rfl | rfl <;> simp

end DistributedSystems.Support
