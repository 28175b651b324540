import DistributedSystems.Lab.Gnu.Getopt

/-!
# A command line read once

`scan` reads the words of a command line once from left to right, with no indices and no exchanges,
and says what is found, which words are those of the options and which are the operands.
-/

namespace DistributedSystems.Lab

open Fs Support CommandLine

namespace Getopt

/-! ## The words read once -/

/-- What a call returns, with the argument it leaves. -/
structure Found where
  c : Int
  optarg : Option JString
deriving DecidableEq, Repr

/-- What the letters of a word give, and how many of the words after it are their arguments. -/
structure Cluster where
  found : List Found
  used : Nat
  /-- The argument came after a `--` that ended the options. -/
  ends : Bool

def Cluster.cons (f : Found) (k : Cluster) : Cluster := { k with found := f :: k.found }

def cluster (optstring : JString) (posixlyCorrect : Bool) (words : List JString) :
    JString → Cluster
  | [] => ⟨[], 0, false⟩
  | c :: letters =>
    match takes optstring c with
    | .invalid =>
      (cluster optstring posixlyCorrect words letters).cons ⟨question.toNat, none⟩
    | .nothing => (cluster optstring posixlyCorrect words letters).cons ⟨c.toNat, none⟩
    | .longOption => ⟨[], 0, false⟩
    | .optional => ⟨[⟨c.toNat, if letters = [] then none else some letters⟩], 0, false⟩
    | .required =>
      if letters ≠ [] then ⟨[⟨c.toNat, some letters⟩], 0, false⟩
      else
        match words with
        | [] => ⟨[⟨(missing optstring).toNat, none⟩], 0, false⟩
        | word :: words =>
          if posixlyCorrect ∧ word = dashes then
            match words with
            | [] => ⟨[⟨(missing optstring).toNat, some dashes⟩], 1, false⟩
            | word :: _ => ⟨[⟨c.toNat, some word⟩], 2, true⟩
          else ⟨[⟨c.toNat, some word⟩], 1, false⟩

/-- What is found, the words of the options with their arguments, and the other words. -/
structure Scan where
  found : List Found
  options : List JString
  operands : List JString

/-- How a `Getopt` was made. -/
structure Settings where
  optstring : JString
  ordering : ArgvOrdering
  posixlyCorrect : Bool

def scan (s : Settings) : List JString → Scan
  | [] => ⟨[], [], []⟩
  | word :: words =>
    if word = dashes then ⟨[], [word], words⟩
    else if isNonopt word then
      match s.ordering with
      | .requireOrder => ⟨[], [], word :: words⟩
      | .permute =>
        let r := scan s words
        { r with operands := word :: r.operands }
      | .returnInOrder =>
        let r := scan s words
        { r with found := ⟨1, some word⟩ :: r.found, options := word :: r.options }
    else
      let k := cluster s.optstring s.posixlyCorrect words (letters word)
      if k.ends then ⟨k.found, word :: words.take k.used, words.drop k.used⟩
      else
        let r := scan s (words.drop k.used)
        ⟨k.found ++ r.found, word :: words.take k.used ++ r.options, r.operands⟩
termination_by words => words.length
decreasing_by
  all_goals simp only [List.length_cons, List.length_drop]; omega

variable {s : Settings} {rest : List JString} {word : JString}

/-! ## Letters -/

section Letters

variable {letters : JString} {c : UInt16}

theorem cluster_found_ne_nil (hlong : takes s.optstring c ≠ .longOption) (posix : Bool)
    (words : List JString) (letters : JString) :
    (cluster s.optstring posix words (c :: letters)).found ≠ [] := by
  unfold cluster
  cases htakes : takes s.optstring c with
  | invalid => exact List.cons_ne_nil _ _
  | nothing => exact List.cons_ne_nil _ _
  | longOption => exact absurd htakes hlong
  | optional => exact List.cons_ne_nil _ _
  | required =>
    by_cases hletters : letters ≠ []
    · simp only [if_pos hletters]
      exact List.cons_ne_nil _ _
    · simp only [if_neg hletters]
      cases words with
      | nil => exact List.cons_ne_nil _ _
      | cons argument words =>
        by_cases hdashes : posix = true ∧ argument = dashes
        · simp only [if_pos hdashes]
          cases words with
          | nil => exact List.cons_ne_nil _ _
          | cons operand words => exact List.cons_ne_nil _ _
        · simp only [if_neg hdashes]
          exact List.cons_ne_nil _ _

theorem cluster_invalid (htakes : takes s.optstring c = .invalid) :
    cluster s.optstring s.posixlyCorrect rest (c :: letters) =
      (cluster s.optstring s.posixlyCorrect rest letters).cons ⟨question.toNat, none⟩ := by
  conv_lhs => unfold cluster
  rw [htakes]

theorem cluster_nothing (htakes : takes s.optstring c = .nothing) :
    cluster s.optstring s.posixlyCorrect rest (c :: letters) =
      (cluster s.optstring s.posixlyCorrect rest letters).cons ⟨c.toNat, none⟩ := by
  conv_lhs => unfold cluster
  rw [htakes]

/-- An option with the rest of its word for an argument, or with an optional one. -/
theorem cluster_one (htakes : takes s.optstring c = .optional ∨
      takes s.optstring c = .required ∧ letters ≠ []) :
    cluster s.optstring s.posixlyCorrect rest (c :: letters) =
      ⟨[⟨c.toNat, if letters = [] then none else some letters⟩], 0, false⟩ := by
  unfold cluster
  rcases htakes with h | ⟨h, hletters⟩
  · rw [h]
  · rw [h]
    simp only [if_pos hletters, if_neg hletters]

theorem cluster_ends {posix : Bool} {words : List JString} {letters : JString}
    (h : (cluster s.optstring posix words letters).ends = true) : posix = true := by
  induction letters with
  | nil => exact absurd h Bool.false_ne_true
  | cons c letters ih =>
    unfold cluster at h
    cases htakes : takes s.optstring c with
    | invalid =>
      rw [htakes] at h
      exact ih h
    | nothing =>
      rw [htakes] at h
      exact ih h
    | longOption =>
      rw [htakes] at h
      exact absurd h Bool.false_ne_true
    | optional =>
      rw [htakes] at h
      exact absurd h Bool.false_ne_true
    | required =>
      rw [htakes] at h
      by_cases hletters : letters ≠ []
      · simp only [if_pos hletters] at h
        exact absurd h Bool.false_ne_true
      · simp only [if_neg hletters] at h
        cases words with
        | nil => exact absurd h Bool.false_ne_true
        | cons argument words =>
          by_cases hdashes : posix = true ∧ argument = dashes
          · exact hdashes.1
          · simp only [if_neg hdashes] at h
            exact absurd h Bool.false_ne_true

end Letters

/-! ## Words -/

theorem isNonopt_dashes : isNonopt dashes = false := by decide

theorem letters_ne_nil (hopt : isNonopt word = false) (hne : word ≠ dashes) :
    letters word ≠ [] := by
  match word, hopt, hne with
  | [], hopt, _ => exact absurd hopt (by decide)
  | [c], hopt, _ =>
    by_cases hc : c = dash
    · subst hc
      exact absurd hopt (by decide)
    · have : isNonopt [c] = true := by
        unfold isNonopt
        simp [hc]
      rw [this] at hopt
      exact absurd hopt (by decide)
  | c :: d :: word, _, hne =>
    unfold letters
    by_cases hpre : dashes.isPrefixOf (c :: d :: word) = true
    · rw [if_pos hpre]
      intro hnil
      have hword : word = [] := hnil
      subst hword
      obtain ⟨t, ht⟩ := List.isPrefixOf_iff_prefix.1 hpre
      have htail : t = [] := by
        have := congrArg List.length ht
        simp only [List.length_append, List.length_cons, List.length_nil, dashes] at this
        exact List.length_eq_zero_iff.1 (by omega)
      rw [htail, List.append_nil] at ht
      exact hne ht.symm
    · rw [if_neg hpre]
      exact List.cons_ne_nil _ _

/-- The non-options at the front are operands. -/
theorem scan_nonopts (horder : s.ordering = .permute) {operands : List JString}
    (hnonopts : ∀ word ∈ operands, isNonopt word = true) (rest : List JString) :
    scan s (operands ++ rest) =
      { scan s rest with operands := operands ++ (scan s rest).operands } := by
  induction operands with
  | nil => rfl
  | cons word operands ih =>
    have hword : isNonopt word = true := hnonopts word List.mem_cons_self
    have hne : word ≠ dashes := by
      rintro rfl
      rw [isNonopt_dashes] at hword
      exact absurd hword (by decide)
    rw [List.cons_append, scan, if_neg hne, if_pos hword, horder]
    simp only
    rw [ih fun w hw => hnonopts w (List.mem_cons_of_mem _ hw)]
    rfl

/-- The scan only rearranges the words, and keeps the order of the options and of the operands. -/
theorem scan_rearranges (s : Settings) (words : List JString) :
    ((scan s words).options ++ (scan s words).operands).Perm words ∧
      (scan s words).options.Sublist words ∧ (scan s words).operands.Sublist words := by
  fun_induction scan s words with
  | case1 => exact ⟨.nil, .slnil, .slnil⟩
  | case2 words =>
    exact ⟨.refl _, (List.nil_sublist words).cons_cons _, .cons _ (.refl _)⟩
  | case3 word words _ _ _ => exact ⟨.refl _, List.nil_sublist _, .refl _⟩
  | case4 word words _ _ _ r ih =>
    exact ⟨List.perm_middle.trans (ih.1.cons word), ih.2.1.cons word, ih.2.2.cons_cons word⟩
  | case5 word words _ _ _ r ih =>
    exact ⟨ih.1.cons word, ih.2.1.cons_cons word, ih.2.2.cons word⟩
  | case6 word words _ _ k _ =>
    refine ⟨?_, (List.take_sublist _ _).cons_cons word, (List.drop_sublist _ _).cons word⟩
    rw [List.cons_append, List.take_append_drop]
  | case7 word words _ _ k _ r ih =>
    have hsplit := List.take_append_drop k.used words
    refine ⟨?_, ?_, ?_⟩
    · rw [List.cons_append, List.cons_append, List.append_assoc]
      refine .cons word ?_
      conv_rhs => rw [← hsplit]
      exact ih.1.append_left _
    · have := (List.Sublist.refl (words.take k.used)).append ih.2.1
      rw [hsplit] at this
      exact this.cons_cons word
    · exact (ih.2.2.trans (List.drop_sublist _ _)).cons word

/-! ## How many options a command line can have -/

theorem length_cluster_le (optstring : JString) (posix : Bool) (words : List JString)
    (letters : JString) :
    (cluster optstring posix words letters).found.length ≤ letters.length := by
  induction letters with
  | nil => exact Nat.le_refl _
  | cons c letters ih =>
    unfold cluster
    cases takes optstring c with
    | invalid => exact Nat.succ_le_succ ih
    | nothing => exact Nat.succ_le_succ ih
    | longOption => exact Nat.zero_le _
    | optional => exact Nat.succ_le_succ (Nat.zero_le _)
    | required =>
      by_cases hletters : letters ≠ []
      · simp only [if_pos hletters]
        exact Nat.succ_le_succ (Nat.zero_le _)
      · simp only [if_neg hletters]
        cases words with
        | nil => exact Nat.succ_le_succ (Nat.zero_le _)
        | cons argument words =>
          by_cases hdashes : posix = true ∧ argument = dashes
          · simp only [if_pos hdashes]
            cases words with
            | nil => exact Nat.succ_le_succ (Nat.zero_le _)
            | cons operand words => exact Nat.succ_le_succ (Nat.zero_le _)
          · simp only [if_neg hdashes]
            exact Nat.succ_le_succ (Nat.zero_le _)

theorem length_letters_le (word : JString) : (letters word).length ≤ word.length := by
  unfold letters
  split_ifs
  · rw [List.length_drop]
    omega
  · rw [List.length_drop]
    omega

/-- One for each word and one for each character. -/
def size (words : List JString) : Nat := words.length + words.flatten.length

theorem size_drop_le (words : List JString) (n : Nat) : size (words.drop n) ≤ size words := by
  conv_rhs => rw [← List.take_append_drop n words]
  unfold size
  rw [List.flatten_append, List.length_append, List.length_append]
  omega

theorem size_cons (word : JString) (words : List JString) :
    size (word :: words) = word.length + 1 + size words := by
  unfold size
  rw [List.flatten_cons, List.length_append, List.length_cons]
  omega

theorem length_scan_le (s : Settings) (words : List JString) :
    (scan s words).found.length ≤ size words := by
  fun_induction scan s words with
  | case1 => exact Nat.zero_le _
  | case2 words => exact Nat.zero_le _
  | case3 word words _ _ _ => exact Nat.zero_le _
  | case4 word words _ _ _ r ih => exact ih.trans (size_drop_le (word :: words) 1)
  | case5 word words _ _ _ r ih =>
    have hr : r.found.length ≤ size words := ih
    rw [List.length_cons, size_cons]
    omega
  | case6 word words _ _ k _ =>
    have hk := length_cluster_le s.optstring s.posixlyCorrect words (letters word)
    have hl := length_letters_le word
    rw [size_cons]
    exact (hk.trans hl).trans (by omega)
  | case7 word words _ _ k _ r ih =>
    have hk := length_cluster_le s.optstring s.posixlyCorrect words (letters word)
    have hl := length_letters_le word
    have hr : r.found.length ≤ size (words.drop k.used) := ih
    have hk' : k.found.length ≤ (letters word).length := hk
    have hd := size_drop_le words k.used
    rw [List.length_append, size_cons]
    omega

end Getopt

end DistributedSystems.Lab
