import Mathlib.Data.List.Basic
import Mathlib.Data.List.DropRight

/-!
# Splitting

The pieces of a text between its separators, without the empty pieces at its end. A text that has no
separator is its only piece, even if it is empty. `splitText_word` takes the first piece off, and
`pieces_ne_nil` says that a text which does not begin with a separator has one.
-/

namespace DistributedSystems.Support

variable {α : Type} {p : α → Bool}

/-- The pieces of the text, without the empty ones at the end. -/
def pieces (p : α → Bool) (text : List α) : List (List α) :=
  (text.splitOnP p).rdropWhile List.isEmpty

def splitText (p : α → Bool) (text : List α) : List (List α) :=
  if text.any p then pieces p text else [text]

theorem rdropWhile_cons_of_neg {q : α → Bool} {a : α} (h : ¬ q a) (l : List α) :
    (a :: l).rdropWhile q = a :: l.rdropWhile q := by
  induction l using List.reverseRecOn with
  | nil => rw [List.rdropWhile_singleton, if_neg h, List.rdropWhile_nil]
  | append_singleton l b ih =>
    rw [← List.cons_append, List.rdropWhile_concat, List.rdropWhile_concat, ih]
    split <;> rfl

/-- The first piece. -/
theorem pieces_word {word : List α} (hne : word ≠ []) (h : ∀ a ∈ word, p a = false) {sep : α}
    (hsep : p sep = true) (rest : List α) :
    pieces p (word ++ sep :: rest) = word :: pieces p rest := by
  unfold pieces
  rw [List.splitOnP_append_cons_of_forall_mem h sep hsep, rdropWhile_cons_of_neg]
  rwa [List.isEmpty_iff]

theorem pieces_ne_nil {a : α} (h : p a = false) (rest : List α) : pieces p (a :: rest) ≠ [] := by
  obtain ⟨piece, more, hmore⟩ := List.exists_cons_of_ne_nil (List.splitOnP_ne_nil p rest)
  unfold pieces
  rw [List.splitOnP_cons_eq_if_modifyHead, h, hmore, if_neg (by decide), List.modifyHead_cons,
    rdropWhile_cons_of_neg (by simp)]
  exact List.cons_ne_nil _ _

theorem splitText_word {word : List α} (hne : word ≠ []) (h : ∀ a ∈ word, p a = false) {sep : α}
    (hsep : p sep = true) (rest : List α) :
    splitText p (word ++ sep :: rest) = word :: pieces p rest := by
  have hany : (word ++ sep :: rest).any p = true :=
    List.any_eq_true.2 ⟨sep, by simp, hsep⟩
  unfold splitText
  rw [if_pos hany, pieces_word hne h hsep]

end DistributedSystems.Support
