import Mathlib.Data.List.Infix
import Mathlib.Data.List.Count

/-!
# Lines of text

Text read line by line. A line ends with a line feed, with a carriage return and the line feed that
may follow it, or with the text. The ends are not part of the lines, so that the lines put together
again are the text without any of them (`flatten_lines`). Reading takes at most one end at a time
when no carriage return stands before a line feed (`countP_cut`).
-/

namespace DistributedSystems.Support.TextLines

/-- A character that ends a line. -/
def IsBreak (c : Char) : Prop := c = '\n' ∨ c = '\r'

instance : DecidablePred IsBreak := fun c => inferInstanceAs (Decidable (c = '\n' ∨ c = '\r'))

/-- The line feed that belongs to the carriage return before it. -/
def skipFeed : List Char → List Char
  | [] => []
  | c :: cs => if c = '\n' then cs else c :: cs

/-- The first line, and the text after it. -/
def cut : List Char → List Char × List Char
  | [] => ([], [])
  | c :: cs =>
    if c = '\n' then ([], cs)
    else if c = '\r' then ([], skipFeed cs)
    else (c :: (cut cs).1, (cut cs).2)

/-- Read a line, unless the text has ended. -/
def readLine (text : List Char) : Option (List Char × List Char) :=
  if text = [] then none else some (cut text)

theorem skipFeed_cons (c : Char) (cs : List Char) :
    skipFeed (c :: cs) = if c = '\n' then cs else c :: cs := rfl

theorem skipFeed_suffix (cs : List Char) : skipFeed cs <:+ cs := by
  cases cs with
  | nil => exact List.suffix_refl _
  | cons c cs =>
    rw [skipFeed_cons]
    split
    · exact List.suffix_cons c cs
    · exact List.suffix_refl _

theorem cut_return (cs : List Char) : cut ('\r' :: cs) = ([], skipFeed cs) := rfl

theorem cut_cons {c : Char} (hc : ¬ IsBreak c) (cs : List Char) :
    cut (c :: cs) = (c :: (cut cs).1, (cut cs).2) := by
  rw [cut, if_neg fun h => hc (Or.inl h), if_neg fun h => hc (Or.inr h)]

/-- The rest of a text after its first line. -/
theorem cut_suffix (text : List Char) : (cut text).2 <:+ text := by
  induction text with
  | nil => exact List.suffix_refl _
  | cons c cs ih =>
    by_cases hc : IsBreak c
    · rcases hc with rfl | rfl
      · exact List.suffix_cons _ cs
      · exact (skipFeed_suffix cs).trans (List.suffix_cons _ cs)
    · rw [cut_cons hc]
      exact ih.trans (List.suffix_cons c cs)

theorem cut_suffix_tail (c : Char) (cs : List Char) : (cut (c :: cs)).2 <:+ cs := by
  by_cases hc : IsBreak c
  · rcases hc with rfl | rfl
    · exact List.suffix_refl _
    · exact skipFeed_suffix cs
  · rw [cut_cons hc]
    exact cut_suffix cs

theorem length_readLine {text line rest : List Char} (h : readLine text = some (line, rest)) :
    rest.length < text.length := by
  cases text with
  | nil => cases h
  | cons c cs =>
    obtain rfl : (cut (c :: cs)).2 = rest := congrArg (fun x => x.2) (Option.some.inj h)
    exact Nat.lt_succ_of_le (cut_suffix_tail c cs).length_le

/-- Read line by line until the text ends. -/
def lines (text : List Char) : List (List Char) :=
  match _h : readLine text with
  | none => []
  | some (line, rest) => line :: lines rest
termination_by text.length
decreasing_by exact length_readLine _h

@[simp] theorem lines_nil : lines [] = [] := by
  rw [lines]
  rfl

theorem lines_cons (c : Char) (cs : List Char) :
    lines (c :: cs) = (cut (c :: cs)).1 :: lines (cut (c :: cs)).2 := by
  rw [lines]
  rfl

/-! ## The lines put together -/

/-- The text without its line ends. -/
def joined (text : List Char) : List Char := text.filter (¬ IsBreak ·)

theorem mem_of_mem_joined {c : Char} {text : List Char} (h : c ∈ joined text) : c ∈ text :=
  List.mem_of_mem_filter h

theorem joined_cons_break {c : Char} (hc : IsBreak c) (cs : List Char) :
    joined (c :: cs) = joined cs :=
  List.filter_cons_of_neg (by simp [hc])

theorem joined_cons {c : Char} (hc : ¬ IsBreak c) (cs : List Char) :
    joined (c :: cs) = c :: joined cs :=
  List.filter_cons_of_pos (by simp [hc])

theorem joined_skipFeed (cs : List Char) : joined (skipFeed cs) = joined cs := by
  cases cs with
  | nil => rfl
  | cons c cs =>
    rw [skipFeed_cons]
    split
    · rename_i h
      rw [joined_cons_break (Or.inl h)]
    · rfl

theorem joined_cut (text : List Char) : (cut text).1 ++ joined (cut text).2 = joined text := by
  induction text with
  | nil => rfl
  | cons c cs ih =>
    by_cases hc : IsBreak c
    · rw [joined_cons_break hc]
      rcases hc with rfl | rfl
      · rfl
      · exact joined_skipFeed cs
    · rw [cut_cons hc, joined_cons hc, List.cons_append, ih]

/-- The lines put together are the text without its line ends. -/
theorem flatten_lines (text : List Char) : (lines text).flatten = joined text := by
  induction text using lines.induct with
  | case1 text h =>
    cases text with
    | nil => rw [lines_nil]; rfl
    | cons c cs => cases h
  | case2 text line rest h ih =>
    cases text with
    | nil => cases h
    | cons c cs =>
      have hcut : cut (c :: cs) = (line, rest) := Option.some.inj h
      have hjoined := joined_cut (c :: cs)
      rw [hcut] at hjoined
      rw [lines_cons, List.flatten_cons, hcut, ih]
      exact hjoined

theorem joined_joined (text : List Char) : joined (joined text) = joined text :=
  List.filter_filter.trans (by simp [joined])

/-- Nothing is lost exactly when there is nothing to lose. -/
theorem joined_eq_self_iff {text : List Char} : joined text = text ↔ ∀ c ∈ text, ¬ IsBreak c := by
  unfold joined
  rw [List.filter_eq_self]
  simp

/-! ## Counting line ends -/

/-- No line feed comes right after a carriage return. -/
def NoPair (text : List Char) : Prop := ¬ ['\r', '\n'] <:+: text

theorem NoPair.of_suffix {text rest : List Char} (h : NoPair text) (hs : rest <:+ text) :
    NoPair rest :=
  fun hin => h (hin.trans hs.isInfix)

theorem skipFeed_of_noPair {cs : List Char} (h : NoPair ('\r' :: cs)) : skipFeed cs = cs := by
  cases cs with
  | nil => rfl
  | cons c cs =>
    rw [skipFeed_cons, if_neg]
    intro hc
    subst hc
    exact h ⟨[], cs, rfl⟩

/-- Reading a line takes at most one line end. -/
theorem countP_cut {text : List Char} (h : NoPair text) :
    text.countP (IsBreak ·) ≤ (cut text).2.countP (IsBreak ·) + 1 := by
  induction text with
  | nil => exact Nat.zero_le _
  | cons c cs ih =>
    have hcs : NoPair cs := h.of_suffix (List.suffix_cons c cs)
    by_cases hc : IsBreak c
    · rw [List.countP_cons_of_pos (by simp [hc])]
      rcases hc with rfl | rfl
      · exact Nat.le_refl _
      · rw [cut_return, skipFeed_of_noPair h]
    · rw [List.countP_cons_of_neg (by simp [hc]), cut_cons hc]
      exact ih hcs

/-- A line that ends with a line feed. -/
theorem cut_append_feed {line : List Char} (h : ∀ c ∈ line, ¬ IsBreak c) (rest : List Char) :
    cut (line ++ '\n' :: rest) = (line, rest) := by
  induction line with
  | nil => rfl
  | cons c line ih =>
    obtain ⟨hc, hline⟩ := List.forall_mem_cons.1 h
    rw [List.cons_append, cut_cons hc, ih hline]

end DistributedSystems.Support.TextLines
