import DistributedSystems.Lab.Gnu.OptionScan
import Mathlib.Data.List.TakeWhile

/-!
# Where `getopt` stands between two words

The words of `argv` are those of the options that were exchanged, the non-options that were skipped,
the options since then, and the words that are not read (`Placed`). What `getopt` does between two
words keeps them so, and finds the next word that is not skipped (`Between.resume`).
-/

namespace DistributedSystems.Lab

open Fs Support CommandLine

namespace Getopt

/-! ## Where the scan stands -/

variable {s : Settings} {g g₁ g₂ : Getopt}
  {done nonopts recent words rest : List JString} {word : JString}

def settings (g : Getopt) : Settings := ⟨g.optstring, g.ordering, g.posixlyCorrect⟩

/-- The options that were exchanged, the non-options, the options since, and what is not read. -/
structure Placed (s : Settings) (g : Getopt) (done nonopts recent rest : List JString) : Prop where
  settings : g.settings = s
  argv : g.argv = done ++ nonopts ++ recent ++ rest
  optind : g.optind = done.length + nonopts.length + recent.length
  firstNonopt : g.firstNonopt = done.length
  lastNonopt : g.lastNonopt = done.length + nonopts.length
  endparse : g.endparse = false

/-- Between two words. -/
structure Between (s : Settings) (g : Getopt) (done nonopts recent rest : List JString) : Prop where
  placed : Placed s g.bounded done nonopts recent rest
  nextchar : g.nextchar.getD [] = []
  permutes : s.ordering ≠ .permute → done = [] ∧ nonopts = []

theorem Placed.bounded (h : Placed s g done nonopts recent rest) :
    Placed s g.bounded done nonopts recent rest := by
  have hf := h.firstNonopt
  have hl := h.lastNonopt
  have ho := h.optind
  have e : g.bounded = g := by
    unfold Getopt.bounded
    rw [if_neg (by omega), if_neg (by omega)]
  rw [e]
  exact h

theorem Placed.length_argv (h : Placed s g done nonopts recent rest) :
    g.argv.length = g.optind + rest.length := by
  rw [h.argv, h.optind]
  simp only [List.length_append]

theorem Placed.drop_optind (h : Placed s g done nonopts recent rest) :
    g.argv.drop g.optind = rest := by
  rw [h.argv, h.optind, ← List.length_append, ← List.length_append, List.drop_left]

theorem Placed.element (h : Placed s g done nonopts recent (word :: rest)) :
    g.element = .ok word := by
  have : g.argv[g.optind]? = some word := by
    rw [← List.head?_drop, h.drop_optind]
    rfl
  unfold Getopt.element
  rw [this]

/-! ## The exchange -/

/-- The segment from `last_nonopt` to `optind` comes before the one from `first_nonopt` to
`last_nonopt`, both in their own order, and every other argument stays where it is. -/
theorem exchange_argv {before low high after : List JString}
    (hargv : g.argv = before ++ low ++ high ++ after) (hfirst : g.firstNonopt = before.length)
    (hlast : g.lastNonopt = before.length + low.length)
    (hoptind : g.optind = before.length + low.length + high.length) :
    g.exchange = .ok { g with
      argv := before ++ high ++ low ++ after
      firstNonopt := before.length + high.length
      lastNonopt := g.optind } := by
  unfold exchange
  rw [hargv, hfirst, hlast, hoptind, exchangeSegments_append]
  simp only
  rw [show before.length + low.length + high.length - (before.length + low.length) =
    high.length by omega]

theorem skipNonopts_eq (words : List JString) (n : Nat) :
    skipNonopts words n = n + (words.takeWhile isNonopt).length := by
  induction words generalizing n with
  | nil => rfl
  | cons word words ih =>
    rw [skipNonopts, List.takeWhile_cons]
    by_cases h : isNonopt word = true
    · rw [if_pos h, if_pos h, ih, List.length_cons]
      omega
    · rw [if_neg h, if_neg h]
      rfl

theorem Placed.exchange (h : Placed s g done nonopts recent rest) :
    ∃ g', g.exchange = .ok g' ∧ Placed s g' (done ++ recent) nonopts [] rest ∧
      g'.nextchar = g.nextchar ∧ g'.optarg = g.optarg := by
  refine ⟨_, exchange_argv h.argv h.firstNonopt h.lastNonopt h.optind, ?_, rfl, rfl⟩
  have ho := h.optind
  exact
    { settings := h.settings
      argv := by simp only [List.append_assoc, List.nil_append]
      optind := by simp only [List.length_append, List.length_nil]; omega
      firstNonopt := by simp only [List.length_append]
      lastNonopt := by simp only [List.length_append]; omega
      endparse := h.endparse }

/-- More non-options are skipped. -/
theorem Placed.skip (h : Placed s g done nonopts [] rest) :
    Placed s { g with
        optind := skipNonopts (g.argv.drop g.optind) g.optind
        lastNonopt := skipNonopts (g.argv.drop g.optind) g.optind }
      done (nonopts ++ rest.takeWhile isNonopt) [] (rest.dropWhile isNonopt) := by
  have ho := h.optind
  rw [h.drop_optind, skipNonopts_eq]
  exact
    { settings := h.settings
      argv := by
        simp only [h.argv, List.append_nil, List.append_assoc, List.takeWhile_append_dropWhile]
      optind := by simp only [List.length_append, List.length_nil] at ho ⊢; omega
      firstNonopt := h.firstNonopt
      lastNonopt := by simp only [List.length_append, List.length_nil] at ho ⊢; omega
      endparse := h.endparse }

theorem Placed.permuteNonopts (h : Placed s g done nonopts recent rest) :
    ∃ g', g.permuteNonopts = .ok g' ∧
      Placed s g' (done ++ recent) (nonopts ++ rest.takeWhile isNonopt) []
        (rest.dropWhile isNonopt) ∧ g'.nextchar = g.nextchar ∧ g'.optarg = g.optarg := by
  have hf := h.firstNonopt
  have hl := h.lastNonopt
  have ho := h.optind
  unfold Getopt.permuteNonopts
  by_cases hrecent : recent = []
  · subst hrecent
    rw [List.length_nil, Nat.add_zero] at ho
    rw [if_neg (by omega), if_neg (by omega), List.append_nil]
    exact ⟨_, rfl, h.skip, rfl, rfl⟩
  · have hlength : 0 < recent.length := List.length_pos_iff.2 hrecent
    by_cases hnonopts : nonopts = []
    · subst hnonopts
      rw [List.length_nil, Nat.add_zero] at ho hl
      rw [if_neg (by omega), if_pos (by omega)]
      refine ⟨_, rfl, Placed.skip
        (g := { g with firstNonopt := g.optind, lastNonopt := g.optind }) ?_, rfl, rfl⟩
      exact
        { settings := h.settings
          argv := by simp only [h.argv, List.append_nil]
          optind := by simp only [List.length_append, List.length_nil]; omega
          firstNonopt := by simp only [List.length_append]; omega
          lastNonopt := by simp only [List.length_append, List.length_nil]; omega
          endparse := h.endparse }
    · have := List.length_pos_iff.2 hnonopts
      obtain ⟨g', hexchange, h', hkept⟩ := h.exchange
      rw [if_pos ⟨by omega, by omega⟩, hexchange]
      exact ⟨_, rfl, h'.skip, hkept⟩

/-! ## The next word -/

/-- The last call was made: the words of the options in front, `optind` behind them. -/
def Finished (g : Getopt) (options operands : List JString) : Prop :=
  g.argv = options ++ operands ∧ g.optind = options.length

theorem Placed.passDashes (h : Placed s g done nonopts recent (dashes :: rest)) :
    ∃ g', g.passDashes = .ok g' ∧ g'.argv = done ++ recent ++ [dashes] ++ (nonopts ++ rest) ∧
      g'.optind = g'.argv.length ∧ g'.lastNonopt = g'.argv.length ∧
      g'.firstNonopt = (done ++ recent ++ [dashes]).length := by
  have hf := h.firstNonopt
  have hl := h.lastNonopt
  have ho := h.optind
  -- the `--` counts as one more option
  have h' : Placed s { g with optind := g.optind + 1 } done nonopts (recent ++ [dashes]) rest :=
    { settings := h.settings
      argv := by simp only [h.argv, List.append_assoc, List.cons_append, List.nil_append]
      optind := by simp only [List.length_append, List.length_cons, List.length_nil]; omega
      firstNonopt := hf
      lastNonopt := hl
      endparse := h.endparse }
  have hlength : ¬g.optind = g.argv.length := by
    rw [h.length_argv, List.length_cons]
    omega
  unfold Getopt.passDashes
  rw [if_neg hlength, h.element]
  simp only [bind, Except.bind, ne_eq, not_true_eq_false, if_false]
  by_cases hnonopts : nonopts = []
  · subst hnonopts
    rw [List.length_nil, Nat.add_zero] at ho hl
    rw [if_neg (by omega), if_pos (by omega)]
    refine ⟨_, rfl, ?_, rfl, rfl, ?_⟩
    · simp only [h.argv, List.append_nil, List.append_assoc, List.cons_append, List.nil_append]
    · simp only [List.length_append, List.length_cons, List.length_nil]
      omega
  · have := List.length_pos_iff.2 hnonopts
    rw [if_pos ⟨by omega, by omega⟩, exchange_argv h'.argv h'.firstNonopt h'.lastNonopt h'.optind]
    refine ⟨_, rfl, ?_, rfl, rfl, ?_⟩
    · simp only [List.append_assoc]
    · simp only [List.length_append, List.length_cons, List.length_nil]
      omega

theorem Placed.passDashes_of_ne (h : Placed s g done nonopts recent rest)
    (hne : rest.head? ≠ some dashes) : g.passDashes = .ok g := by
  unfold Getopt.passDashes
  cases rest with
  | nil =>
    rw [if_pos (by rw [h.length_argv, List.length_nil]; rfl)]
    rfl
  | cons word rest =>
    have hword : word ≠ dashes := fun e => hne (by rw [e]; rfl)
    rw [if_neg (by rw [h.length_argv, List.length_cons]; omega), h.element]
    simp only [bind, Except.bind, if_pos hword]
    rfl

theorem nextWord_of_end (hend : g.optind = g.argv.length) {options operands : List JString}
    (hargv : g.argv = options ++ operands)
    (hfirst : g.firstNonopt = options.length ∨ g.firstNonopt = g.lastNonopt ∧ operands = [])
    (hlast : g.lastNonopt = g.argv.length ∨ g.firstNonopt = g.lastNonopt ∧ operands = []) :
    ∃ g', g.nextWord = .ok (some (-1), g') ∧ Finished g' options operands := by
  have hlength : g.argv.length = options.length + operands.length := by
    rw [hargv, List.length_append]
  unfold Getopt.nextWord
  rw [if_pos hend]
  refine ⟨_, rfl, ?_⟩
  by_cases hne : g.firstNonopt = g.lastNonopt
  · rw [if_neg (not_not_intro hne)]
    refine ⟨hargv, ?_⟩
    rcases hfirst with h | ⟨-, rfl⟩
    · rcases hlast with h' | ⟨-, rfl⟩
      · omega
      · rw [hend, hlength, List.length_nil, Nat.add_zero]
    · rw [hend, hlength, List.length_nil, Nat.add_zero]
  · rw [if_pos hne]
    exact ⟨hargv, hfirst.resolve_right fun h => hne h.1⟩

theorem Placed.nextWord_nil (h : Placed s g done nonopts recent [])
    (hsome : nonopts = [] ∨ recent = []) :
    ∃ g', g.nextWord = .ok (some (-1), g') ∧ Finished g' (done ++ recent) nonopts := by
  have hf := h.firstNonopt
  have hl := h.lastNonopt
  have ho := h.optind
  have hend : g.optind = g.argv.length := by
    rw [h.length_argv, List.length_nil, Nat.add_zero]
  rcases hsome with rfl | rfl
  · have hnone : g.firstNonopt = g.lastNonopt := by
      rw [hf, hl, List.length_nil, Nat.add_zero]
    refine nextWord_of_end hend ?_ (.inr ⟨hnone, rfl⟩) (.inr ⟨hnone, rfl⟩)
    simp only [h.argv, List.append_nil]
  · refine nextWord_of_end hend ?_ (.inl ?_) (.inl ?_)
    · simp only [h.argv, List.append_nil]
    · rw [hf, List.append_nil]
    · rw [← hend, hl, ho, List.length_nil, Nat.add_zero]

theorem Placed.nextWord_cons (h : Placed s g done nonopts recent (word :: rest)) :
    g.nextWord =
      if isNonopt word then
        if g.ordering = .requireOrder then .ok (some (-1), g)
        else .ok (some 1, { g with optarg := some word, optind := g.optind + 1 })
      else .ok (none, { g with nextchar := some (letters word) }) := by
  unfold Getopt.nextWord
  rw [if_neg (by rw [h.length_argv, List.length_cons]; omega), h.element]
  simp only [bind, Except.bind, pure, Except.pure]

theorem Between.noArgument (h : Between s g done nonopts recent rest) :
    Between s { g with optarg := none } done nonopts recent rest :=
  ⟨⟨h.1.1, h.1.2, h.1.3, h.1.4, h.1.5, h.1.6⟩, h.2, h.3⟩

theorem Between.getopt (h : Between s g done nonopts recent rest) :
    g.getopt =
      match { g with optarg := none }.resume with
      | .error e => .error e
      | .ok (some c, g) => .ok (c, g)
      | .ok (none, g) => g.shortOption := by
  have hbounded : g.bounded.endparse = false := h.placed.endparse
  have hend : ¬g.endparse = true := fun heq => Bool.false_ne_true (hbounded.symm.trans heq)
  exact (if_neg hend).trans (if_pos h.nextchar)

/-- Where the next word that is not skipped stands. -/
theorem Between.resume (h : Between s g done nonopts recent rest) (harg : g.optarg = none) :
    ∃ gm done' recent' operands rest', rest = operands ++ rest' ∧
      Placed s gm done' (nonopts ++ operands) recent' rest' ∧
      g.resume = (gm.passDashes >>= Getopt.nextWord) ∧ done' ++ recent' = done ++ recent ∧
      gm.nextchar.getD [] = [] ∧ gm.optarg = none ∧
      (s.ordering = .permute → recent' = [] ∧ (∀ word ∈ operands, isNonopt word = true) ∧
        ∀ word ∈ rest'.head?, isNonopt word = false) ∧
      (s.ordering ≠ .permute → done' = [] ∧ nonopts = [] ∧ operands = []) := by
  have horder : g.bounded.ordering = s.ordering := congrArg Settings.ordering h.placed.settings
  unfold Getopt.resume
  simp only
  rw [horder]
  by_cases hpermute : s.ordering = .permute
  · rw [if_pos hpermute]
    obtain ⟨gm, hperm, hplaced, hnextchar, hoptarg⟩ := h.placed.permuteNonopts
    rw [hperm]
    refine ⟨gm, _, _, _, _, List.takeWhile_append_dropWhile.symm, hplaced, rfl,
      List.append_nil _, ?_, ?_, ?_, fun hne => absurd hpermute hne⟩
    · rw [hnextchar]
      exact h.nextchar
    · rw [hoptarg]
      exact harg
    · refine fun _ => ⟨rfl, fun word hword => ?_, fun word hword => ?_⟩
      · exact List.mem_takeWhile_imp hword
      · have := List.head?_dropWhile_not isNonopt rest
        rw [Option.mem_def.1 hword] at this
        simpa using this
  · rw [if_neg hpermute]
    obtain ⟨hdone, hnonopts⟩ := h.permutes hpermute
    refine ⟨g.bounded, done, recent, [], rest, rfl, ?_, rfl, rfl, h.nextchar, harg,
      fun hp => absurd hp hpermute, fun _ => ⟨hdone, hnonopts, rfl⟩⟩
    rw [List.append_nil]
    exact h.placed

end Getopt

end DistributedSystems.Lab
