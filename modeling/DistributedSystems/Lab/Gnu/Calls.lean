import DistributedSystems.Lab.Gnu.NextWord

/-!
# Every call of `getopt` on a command line

The calls of `getopt` return what a single reading of the command line finds, and leave the words of
the options in front and the operands behind them, from `optind` on (`calls_scan`).
-/

namespace DistributedSystems.Lab

open Fs Support CommandLine

namespace Getopt

variable {s : Settings} {g g₁ g₂ : Getopt} {found : List Found}
  {done nonopts recent rest : List JString} {word : JString}

/-! ## The letters of a word -/

/-- Calls of `getopt` that return options, one after another. -/
inductive Returns : Getopt → List Found → Getopt → Prop
  | nil (g : Getopt) : Returns g [] g
  | cons {g g₁ g₂ : Getopt} {c : Int} {found : List Found} :
      g.getopt = .ok (c, g₁) → c ≠ -1 → Returns g₁ found g₂ →
        Returns g (⟨c, g₁.optarg⟩ :: found) g₂

theorem Returns.append (h : Returns g found g₁) {found' : List Found}
    (h' : Returns g₁ found' g₂) : Returns g (found ++ found') g₂ := by
  induction h with
  | nil g => exact h'
  | cons hcall hc _ ih => exact .cons hcall hc (ih h')

theorem Returns.of_getopt_eq (h : Returns g found g₂) (hne : found ≠ [])
    (he : g₁.getopt = g.getopt) : Returns g₁ found g₂ := by
  cases h with
  | nil => exact absurd rfl hne
  | cons hcall hc hrest => exact .cons (he.trans hcall) hc hrest

/-- In a word, with these letters left of it. -/
structure Inside (s : Settings) (g : Getopt) (done nonopts recent : List JString) (word : JString)
    (rest : List JString) (letters : JString) : Prop where
  settings : g.settings = s
  argv : g.argv = done ++ nonopts ++ recent ++ word :: rest
  optind : g.optind =
    done.length + nonopts.length + recent.length + if letters = [] then 1 else 0
  firstNonopt : g.firstNonopt = done.length
  lastNonopt : g.lastNonopt = done.length + nonopts.length
  endparse : g.endparse = false
  nextchar : g.nextchar = some letters

/-- What the letters of a word leave. -/
def After (s : Settings) (g : Getopt) (k : Cluster) (done nonopts recent : List JString)
    (word : JString) (rest : List JString) : Prop :=
  if k.ends then
    g.endparse = true ∧ g.argv = done ++ nonopts ++ recent ++ word :: rest ∧
      g.optind = done.length + nonopts.length + recent.length + 1 + k.used ∧ k.used ≤ rest.length
  else
    Placed s g done nonopts (recent ++ word :: rest.take k.used) (rest.drop k.used) ∧
      g.nextchar.getD [] = []

section Letters

variable {letters : JString} {c : UInt16}

theorem Inside.placed (h : Inside s g done nonopts recent word rest letters) {used : Nat}
    (hused : used ≤ rest.length) (hsettings : g₁.settings = g.settings) (hargv : g₁.argv = g.argv)
    (hfirst : g₁.firstNonopt = g.firstNonopt) (hlast : g₁.lastNonopt = g.lastNonopt)
    (hend : g₁.endparse = g.endparse)
    (hoptind : g₁.optind = done.length + nonopts.length + recent.length + 1 + used) :
    Placed s g₁ done nonopts (recent ++ word :: rest.take used) (rest.drop used) where
  settings := hsettings.trans h.settings
  argv := by
    rw [hargv, h.argv]
    simp only [List.append_assoc, List.cons_append, List.take_append_drop]
  optind := by
    rw [hoptind]
    simp only [List.length_append, List.length_cons, List.length_take]
    omega
  firstNonopt := hfirst.trans h.firstNonopt
  lastNonopt := hlast.trans h.lastNonopt
  endparse := hend.trans h.endparse

/-- One letter is taken off. -/
theorem Inside.getopt (h : Inside s g done nonopts recent word rest (c :: letters)) :
    ∃ g₀, Inside s g₀ done nonopts recent word rest letters ∧ g₀.optarg = none ∧
      g.getopt = g₀.option c letters := by
  have ho := h.optind
  rw [if_neg (List.cons_ne_nil _ _), Nat.add_zero] at ho
  refine ⟨{ g with
    optarg := none
    nextchar := some letters
    optind := if letters = [] then g.optind + 1 else g.optind }, ?_, rfl, ?_⟩
  · exact
      { settings := h.settings
        argv := h.argv
        optind := by
          by_cases hletters : letters = []
          · simp only [if_pos hletters]
            omega
          · simp only [if_neg hletters]
            omega
        firstNonopt := h.firstNonopt
        lastNonopt := h.lastNonopt
        endparse := h.endparse
        nextchar := rfl }
  · unfold Getopt.getopt
    simp only [h.endparse, h.nextchar, Option.getD_some, Bool.false_eq_true, if_false,
      List.cons_ne_nil]
    unfold Getopt.shortOption
    simp only

/-- A message changes nothing but what is printed. -/
theorem complain_eq (g : Getopt) (message : GetoptMessage) :
    ∃ err, g.complain message = { g with err } := by
  unfold Getopt.complain
  by_cases h : g.opterr = true
  · rw [if_pos h]
    exact ⟨_, rfl⟩
  · rw [if_neg h]
    exact ⟨g.err, rfl⟩

theorem Inside.complain (h : Inside s g done nonopts recent word rest letters)
    (message : GetoptMessage) :
    ∃ g', { g.complain message with optopt := c } = g' ∧
      Inside s g' done nonopts recent word rest letters ∧ g'.optarg = g.optarg := by
  obtain ⟨err, he⟩ := complain_eq g message
  rw [he]
  exact ⟨_, rfl, ⟨h.1, h.2, h.3, h.4, h.5, h.6, h.7⟩, rfl⟩

theorem Returns.one {c : Int} (hcall : g.getopt = .ok (c, g₁)) (hc : c ≠ -1) :
    Returns g [⟨c, g₁.optarg⟩] g₁ := .cons hcall hc (.nil g₁)

theorem natCast_ne_neg_one (n : Nat) : (n : Int) ≠ -1 := by omega

theorem Placed.take (h : Placed s g done nonopts recent (word :: rest)) :
    Placed s { g with optarg := some word, optind := g.optind + 1 } done nonopts
      (recent ++ [word]) rest where
  settings := h.settings
  argv := by simp only [h.argv, List.append_assoc, List.cons_append, List.nil_append]
  optind := by
    simp only [h.optind, List.length_append, List.length_cons, List.length_nil]
    omega
  firstNonopt := h.firstNonopt
  lastNonopt := h.lastNonopt
  endparse := h.endparse

theorem Placed.requires (h : Placed s g done nonopts recent rest) (c : UInt16) :
    ∃ g', g.requires c = (((missing s.optstring).toNat : Int), g') ∧
      Placed s g' done nonopts recent rest ∧ g'.optarg = g.optarg ∧ g'.nextchar = g.nextchar := by
  have hoptstring : g.optstring = s.optstring := congrArg Settings.optstring h.settings
  obtain ⟨err, he⟩ := complain_eq g (.requires2 c)
  unfold Getopt.requires
  rw [he, ← hoptstring]
  exact ⟨_, rfl, ⟨h.1, h.2, h.3, h.4, h.5, h.6⟩, rfl, rfl⟩

/-- The argument of an option is the next word, where there is one. -/
theorem Inside.nextArgument (h : Inside s g done nonopts recent word rest [])
    (htakes : takes s.optstring c = .required) (harg : g.optarg = none) :
    ∃ code g₂, g.nextArgument c = .ok (code, g₂) ∧ code ≠ -1 ∧
      (cluster s.optstring s.posixlyCorrect rest [c]).found = [⟨code, g₂.optarg⟩] ∧
      After s g₂ (cluster s.optstring s.posixlyCorrect rest [c]) done nonopts recent word rest := by
  have ho := h.optind
  rw [if_pos rfl] at ho
  have hposix : g.posixlyCorrect = s.posixlyCorrect :=
    congrArg Settings.posixlyCorrect h.settings
  have hplaced : Placed s g done nonopts (recent ++ [word]) rest := by
    have := h.placed (Nat.zero_le _) rfl rfl rfl rfl rfl ho
    rwa [List.take_zero, List.drop_zero] at this
  have hnext : g.nextchar.getD [] = [] := by rw [h.nextchar, Option.getD_some]
  unfold Getopt.nextArgument cluster After
  rw [htakes, ← hposix]
  simp only [ne_eq, not_true_eq_false, if_false]
  cases rest with
  | nil =>
    obtain ⟨g', hrequires, hafter, hoptarg, hnextchar⟩ := hplaced.requires c
    rw [if_pos (by rw [hplaced.length_argv, List.length_nil, Nat.add_zero]), hrequires]
    refine ⟨_, _, rfl, natCast_ne_neg_one _, ?_, ?_, ?_⟩
    · rw [hoptarg, harg]
    · exact hafter
    · rw [hnextchar, hnext]
  | cons argument rest =>
    have hfirst := hplaced.take
    rw [if_neg (by rw [hplaced.length_argv, List.length_cons]; omega), hplaced.element]
    simp only [bind, Except.bind]
    by_cases hdashes : g.posixlyCorrect = true ∧ argument = dashes
    · rw [if_pos hdashes, if_pos hdashes]
      cases rest with
      | nil =>
        obtain ⟨g', hrequires, hafter, hoptarg, hnextchar⟩ := hfirst.requires c
        rw [if_pos (by rw [hfirst.length_argv, List.length_nil, Nat.add_zero]), hrequires]
        refine ⟨_, _, rfl, natCast_ne_neg_one _, ?_, ?_, ?_⟩
        · rw [hoptarg, hdashes.2]
        · rwa [List.append_assoc] at hafter
        · rw [hnextchar, hnext]
      | cons operand rest =>
        have hlength : g.argv.length = g.optind + 1 + (operand :: rest).length :=
          hfirst.length_argv
        rw [if_neg (by rw [hlength, List.length_cons]; omega), hfirst.element]
        refine ⟨_, _, rfl, natCast_ne_neg_one _, rfl, rfl, h.argv, ?_, ?_⟩
        · simp only [ho]
        · simp only [List.length_cons]
          omega
    · rw [if_neg hdashes, if_neg hdashes]
      refine ⟨_, _, rfl, natCast_ne_neg_one _, rfl, ?_, rfl⟩
      have hafter : Placed s
          { g with optarg := some argument, optind := g.optind + 1, nextchar := none }
          done nonopts (recent ++ [word] ++ [argument]) rest :=
        ⟨hfirst.1, hfirst.2, hfirst.3, hfirst.4, hfirst.5, hfirst.6⟩
      rwa [List.append_assoc] at hafter

/-- The calls for the letters of one word. -/
theorem Inside.returns (hlong : ∀ c, takes s.optstring c ≠ .longOption)
    (h : Inside s g done nonopts recent word rest letters) :
    ∃ g₂, Returns g (cluster s.optstring s.posixlyCorrect rest letters).found g₂ ∧
      After s g₂ (cluster s.optstring s.posixlyCorrect rest letters) done nonopts recent word
        rest := by
  induction letters generalizing g with
  | nil =>
    have ho := h.optind
    rw [if_pos rfl] at ho
    refine ⟨g, .nil g, ?_⟩
    exact ⟨h.placed (Nat.zero_le _) rfl rfl rfl rfl rfl ho, by rw [h.nextchar]; rfl⟩
  | cons c letters ih =>
    obtain ⟨g₀, h₀, harg, hgetopt⟩ := h.getopt
    have hsame : takes g₀.optstring c = takes s.optstring c :=
      congrArg (fun s => takes s.optstring c) h₀.settings
    have ho := h₀.optind
    unfold Getopt.option at hgetopt
    cases htakes : takes s.optstring c with
    | invalid =>
      obtain ⟨g₁, hcomplain, h₁, hoptarg⟩ := h₀.complain (c := c)
        (if g₀.posixlyCorrect then .illegal c else .invalid c)
      obtain ⟨g₂, hreturns, hafter⟩ := ih h₁
      rw [hsame.trans htakes] at hgetopt
      simp only [hcomplain] at hgetopt
      have hrun := Returns.cons hgetopt (natCast_ne_neg_one _) hreturns
      rw [hoptarg, harg] at hrun
      refine ⟨g₂, ?_, ?_⟩
      · rw [cluster_invalid htakes]
        exact hrun
      · rw [cluster_invalid htakes]
        exact hafter
    | nothing =>
      obtain ⟨g₂, hreturns, hafter⟩ := ih h₀
      rw [hsame.trans htakes] at hgetopt
      have hrun := Returns.cons hgetopt (natCast_ne_neg_one _) hreturns
      rw [harg] at hrun
      refine ⟨g₂, ?_, ?_⟩
      · rw [cluster_nothing htakes]
        exact hrun
      · rw [cluster_nothing htakes]
        exact hafter
    | longOption => exact absurd htakes (hlong c)
    | optional =>
      rw [hsame.trans htakes] at hgetopt
      rw [cluster_one (.inl htakes)]
      by_cases hletters : letters = []
      · subst hletters
        rw [if_pos rfl] at ho
        simp only [ne_eq, not_true_eq_false, if_false] at hgetopt
        exact ⟨_, .one hgetopt (natCast_ne_neg_one _),
          h₀.placed (Nat.zero_le _) rfl rfl rfl rfl rfl ho, rfl⟩
      · rw [if_neg hletters] at ho
        simp only [ne_eq, hletters, not_false_eq_true, if_true] at hgetopt
        rw [if_neg hletters]
        refine ⟨_, .one hgetopt (natCast_ne_neg_one _),
          h₀.placed (Nat.zero_le _) rfl rfl rfl rfl rfl ?_, rfl⟩
        simp only
        omega
    | required =>
      rw [hsame.trans htakes] at hgetopt
      by_cases hletters : letters = []
      · subst hletters
        simp only [ne_eq, not_true_eq_false, if_false] at hgetopt
        obtain ⟨code, g₂, hnext, hcode, hfound, hafter⟩ := h₀.nextArgument htakes harg
        rw [hnext] at hgetopt
        exact ⟨g₂, by rw [hfound]; exact .one hgetopt hcode, hafter⟩
      · rw [if_neg hletters] at ho
        rw [cluster_one (.inr ⟨htakes, hletters⟩), if_neg hletters]
        simp only [ne_eq, hletters, not_false_eq_true, if_true] at hgetopt
        refine ⟨_, .one hgetopt (natCast_ne_neg_one _),
          h₀.placed (Nat.zero_le _) rfl rfl rfl rfl rfl ?_, rfl⟩
        simp only
        omega

end Letters

/-! ## The words -/

/-- A word of options, the calls for its letters and what they leave. -/
theorem Placed.returns (hlong : ∀ c, takes s.optstring c ≠ .longOption)
    (h : Placed s g done nonopts recent (word :: rest)) (harg : g.optarg = none)
    (hopt : isNonopt word = false) (hne : word ≠ dashes)
    (hcall : g₁.getopt = { g with nextchar := some (letters word) }.shortOption) :
    ∃ g₂, Returns g₁ (cluster s.optstring s.posixlyCorrect rest (letters word)).found g₂ ∧
      After s g₂ (cluster s.optstring s.posixlyCorrect rest (letters word)) done nonopts recent
        word rest := by
  have hletters : letters word ≠ [] := letters_ne_nil hopt hne
  have hinside : Inside s { g with nextchar := some (letters word) } done nonopts recent word rest
      (letters word) :=
    { settings := h.settings
      argv := h.argv
      optind := by
        rw [if_neg hletters]
        exact h.optind
      firstNonopt := h.firstNonopt
      lastNonopt := h.lastNonopt
      endparse := h.endparse
      nextchar := rfl }
  obtain ⟨g₂, hreturns, hafter⟩ := hinside.returns hlong
  refine ⟨g₂, hreturns.of_getopt_eq ?_ ?_, hafter⟩
  · obtain ⟨c, rest', hcons⟩ := List.exists_cons_of_ne_nil hletters
    rw [hcons]
    exact cluster_found_ne_nil (hlong c) _ _ _
  · rw [hcall]
    unfold Getopt.getopt
    simp only [h.endparse, Bool.false_eq_true, if_false, Option.getD_some, hletters, ← harg]

/-- All the calls that return an option, and the one that returns -1. -/
def Calls (g : Getopt) (found : List Found) (options operands : List JString) : Prop :=
  ∃ g₁ g', Returns g found g₁ ∧ g₁.getopt = .ok (-1, g') ∧ Finished g' options operands

theorem Calls.of_end {g' : Getopt} {options operands : List JString}
    (hcall : g.getopt = .ok (-1, g')) (h : Finished g' options operands) :
    Calls g [] options operands := ⟨g, g', .nil g, hcall, h⟩

theorem Returns.calls {found' : List Found} {options operands : List JString}
    (h : Returns g found g₁) (h' : Calls g₁ found' options operands) :
    Calls g (found ++ found') options operands := by
  obtain ⟨g₂, g', hreturns, hend, hfinished⟩ := h'
  exact ⟨g₂, g', h.append hreturns, hend, hfinished⟩

/-! ### Where the next word is

After the words that are skipped there is no word, the `--` that ends the options, a word that is no
option, or a word of options. -/

/-- A call goes on from `gm`, where the next word is one that is not skipped. -/
structure Ready (s : Settings) (g gm : Getopt) (done nonopts recent rest : List JString) :
    Prop where
  placed : Placed s gm done nonopts recent rest
  getopt : g.getopt =
    match gm.passDashes >>= Getopt.nextWord with
    | .error e => .error e
    | .ok (some c, g) => .ok (c, g)
    | .ok (none, g) => g.shortOption
  nextchar : gm.nextchar.getD [] = []
  optarg : gm.optarg = none
  permutes : s.ordering = .permute → recent = [] ∧ ∀ word ∈ rest.head?, isNonopt word = false
  keeps : s.ordering ≠ .permute → done = [] ∧ nonopts = []

/-- The words that a call skips before it is ready are operands. -/
theorem Between.ready (h : Between s g done nonopts recent rest) :
    ∃ gm done' recent' operands rest', rest = operands ++ rest' ∧
      Ready s g gm done' (nonopts ++ operands) recent' rest' ∧ done' ++ recent' = done ++ recent ∧
      scan s rest = { scan s rest' with operands := operands ++ (scan s rest').operands } := by
  obtain ⟨gm, done', recent', operands, rest', hrest, hplaced, hresume, hdone, hnextchar, harg,
    hpermute, hother⟩ := h.noArgument.resume rfl
  have hgetopt := h.getopt
  rw [hresume] at hgetopt
  refine ⟨gm, done', recent', operands, rest', hrest, ?_, hdone, ?_⟩
  · refine ⟨hplaced, hgetopt, hnextchar, harg, fun hp => ?_, fun hp => ?_⟩
    · exact ⟨(hpermute hp).1, (hpermute hp).2.2⟩
    · exact ⟨(hother hp).1, by rw [(hother hp).2.1, (hother hp).2.2, List.append_nil]⟩
  · by_cases hp : s.ordering = .permute
    · rw [hrest, scan_nonopts hp (hpermute hp).2.1]
    · rw [hrest, (hother hp).2.2]
      rfl

section Ready

variable {gm : Getopt}

/-- No word is left. -/
theorem Ready.calls_nil (h : Ready s g gm done nonopts recent []) :
    Calls g [] (done ++ recent) nonopts := by
  have hsome : nonopts = [] ∨ recent = [] := by
    by_cases hp : s.ordering = .permute
    · exact .inr (h.permutes hp).1
    · exact .inl (h.keeps hp).2
  obtain ⟨g', hnext, hfinished⟩ := h.placed.nextWord_nil hsome
  have hgetopt := h.getopt
  rw [h.placed.passDashes_of_ne (by simp)] at hgetopt
  simp only [bind, Except.bind, hnext] at hgetopt
  exact .of_end hgetopt hfinished

/-- The options end at a `--`. -/
theorem Ready.calls_dashes (h : Ready s g gm done nonopts recent (dashes :: rest)) :
    Calls g [] (done ++ recent ++ [dashes]) (nonopts ++ rest) := by
  obtain ⟨gd, hpass, hargv, hoptind, hlast, hfirst⟩ := h.placed.passDashes
  obtain ⟨g', hnext, hfinished⟩ := nextWord_of_end hoptind hargv (.inl hfirst) (.inl hlast)
  have hgetopt := h.getopt
  rw [hpass] at hgetopt
  simp only [bind, Except.bind, hnext] at hgetopt
  exact .of_end hgetopt hfinished

/-- What a call does with any other word. -/
theorem Ready.getopt_word (h : Ready s g gm done nonopts recent (word :: rest))
    (hdashes : word ≠ dashes) :
    g.getopt =
      if isNonopt word then
        if s.ordering = .requireOrder then .ok (-1, gm)
        else .ok (1, { gm with optarg := some word, optind := gm.optind + 1 })
      else { gm with nextchar := some (letters word) }.shortOption := by
  have horder : gm.ordering = s.ordering := congrArg Settings.ordering h.placed.settings
  rw [h.getopt, h.placed.passDashes_of_ne (by simpa using hdashes), ← horder]
  simp only [bind, Except.bind, h.placed.nextWord_cons]
  by_cases hnonopt : isNonopt word = true
  · simp only [if_pos hnonopt]
    by_cases hrequire : gm.ordering = .requireOrder
    · simp only [if_pos hrequire]
    · simp only [if_neg hrequire]
  · simp only [if_neg hnonopt]

/-- A word that is no option is only met where it is not skipped. -/
theorem Ready.not_permute (h : Ready s g gm done nonopts recent (word :: rest))
    (hnonopt : isNonopt word = true) : s.ordering ≠ .permute := by
  intro hp
  have hoption := (h.permutes hp).2 word rfl
  rw [hnonopt] at hoption
  cases hoption

/-- A word that is no option ends the options. -/
theorem Ready.calls_nonopt (h : Ready s g gm done nonopts recent (word :: rest))
    (hdashes : word ≠ dashes) (hnonopt : isNonopt word = true)
    (horder : s.ordering = .requireOrder) :
    Calls g [] (done ++ recent) (nonopts ++ word :: rest) := by
  have hgetopt := h.getopt_word hdashes
  rw [if_pos hnonopt, if_pos horder] at hgetopt
  obtain ⟨rfl, rfl⟩ := h.keeps (h.not_permute hnonopt)
  refine .of_end hgetopt ⟨?_, ?_⟩
  · rw [h.placed.argv]
    simp only [List.append_nil, List.nil_append]
  · rw [h.placed.optind]
    simp only [List.nil_append, List.length_nil]
    omega

/-- A word that is no option is returned as the argument of one. -/
theorem Ready.returns_nonopt (h : Ready s g gm done nonopts recent (word :: rest))
    (hdashes : word ≠ dashes) (hnonopt : isNonopt word = true)
    (horder : s.ordering = .returnInOrder) :
    ∃ g₁, Returns g [⟨1, some word⟩] g₁ ∧ Between s g₁ done nonopts (recent ++ [word]) rest := by
  have hgetopt := h.getopt_word hdashes
  rw [if_pos hnonopt, if_neg (by rw [horder]; decide)] at hgetopt
  exact ⟨_, .one hgetopt (by decide), h.placed.take.bounded, h.nextchar, h.keeps⟩

/-- A word of options is read letter by letter. -/
theorem Ready.returns_option (hlong : ∀ c, takes s.optstring c ≠ .longOption)
    (h : Ready s g gm done nonopts recent (word :: rest)) (hdashes : word ≠ dashes)
    (hnonopt : isNonopt word = false) :
    ∃ g₂, Returns g (cluster s.optstring s.posixlyCorrect rest (letters word)).found g₂ ∧
      After s g₂ (cluster s.optstring s.posixlyCorrect rest (letters word)) done nonopts recent
        word rest := by
  have hgetopt := h.getopt_word hdashes
  rw [if_neg (by rw [hnonopt]; decide)] at hgetopt
  exact h.placed.returns hlong h.optarg hnonopt hdashes hgetopt

end Ready

/-- After letters that end the options there is one more call. -/
theorem After.calls {k : Cluster} (hafter : After s g k [] [] recent word rest)
    (hends : k.ends = true) :
    Calls g [] (recent ++ word :: rest.take k.used) (rest.drop k.used) := by
  unfold After at hafter
  rw [if_pos hends] at hafter
  obtain ⟨hparse, hargv, hoptind, hused⟩ := hafter
  have hlast : g.getopt = .ok (-1, { g with optarg := none }) := by
    unfold Getopt.getopt
    simp only [hparse, if_true]
  refine .of_end hlast ⟨?_, ?_⟩
  · rw [hargv]
    simp only [List.append_assoc, List.cons_append, List.nil_append, List.take_append_drop]
  · rw [hoptind]
    simp only [List.length_nil, List.length_append, List.length_cons, List.length_take]
    omega

/-- And after others the next word. -/
theorem After.between {k : Cluster} (hafter : After s g k done nonopts recent word rest)
    (hends : ¬ k.ends = true) (hkeeps : s.ordering ≠ .permute → done = [] ∧ nonopts = []) :
    Between s g done nonopts (recent ++ word :: rest.take k.used) (rest.drop k.used) := by
  unfold After at hafter
  rw [if_neg hends] at hafter
  exact ⟨hafter.1.bounded, hafter.2, hkeeps⟩

/-- The calls from between two words on. -/
theorem Between.calls (hlong : ∀ c, takes s.optstring c ≠ .longOption)
    (hposix : s.posixlyCorrect = true → s.ordering ≠ .permute)
    (h : Between s g done nonopts recent rest) :
    Calls g (scan s rest).found (done ++ recent ++ (scan s rest).options)
      (nonopts ++ (scan s rest).operands) := by
  -- by the number of words that are not read
  obtain ⟨n, hn⟩ : ∃ n, rest.length = n := ⟨_, rfl⟩
  induction n using Nat.strongRecOn generalizing g done nonopts recent rest with
  | ind n ih =>
    obtain ⟨gm, done', recent', operands, rest', hrest, hready, hdone, hscan⟩ := h.ready
    rw [hscan, ← hdone, ← List.append_assoc nonopts]
    cases rest' with
    | nil =>
      rw [scan]
      simp only [List.append_nil]
      exact hready.calls_nil
    | cons word rest' =>
      have hlength : rest'.length < n := by
        rw [← hn, hrest]
        simp only [List.length_append, List.length_cons]
        omega
      rw [scan]
      by_cases hdashes : word = dashes
      · subst hdashes
        rw [if_pos rfl]
        exact hready.calls_dashes
      rw [if_neg hdashes]
      by_cases hnonopt : isNonopt word = true
      · rw [if_pos hnonopt]
        cases hcase : s.ordering with
        | permute => exact absurd hcase (hready.not_permute hnonopt)
        | requireOrder =>
          simp only [List.append_nil]
          exact hready.calls_nonopt hdashes hnonopt hcase
        | returnInOrder =>
          obtain ⟨g₁, hreturns, hbetween⟩ := hready.returns_nonopt hdashes hnonopt hcase
          have hrun := hreturns.calls (ih _ hlength hbetween rfl)
          simpa only [List.append_assoc, List.cons_append, List.nil_append] using hrun
      · rw [if_neg hnonopt]
        rw [Bool.not_eq_true] at hnonopt
        obtain ⟨g₂, hreturns, hafter⟩ := hready.returns_option hlong hdashes hnonopt
        simp only
        by_cases hends : (cluster s.optstring s.posixlyCorrect rest' (letters word)).ends = true
        · rw [if_pos hends]
          obtain ⟨rfl, hnonopts⟩ := hready.keeps (hposix (cluster_ends hends))
          rw [hnonopts] at hafter ⊢
          have hrun := hreturns.calls (hafter.calls hends)
          simpa only [List.append_assoc, List.append_nil, List.nil_append] using hrun
        · rw [if_neg hends]
          have hshorter : (rest'.drop
              (cluster s.optstring s.posixlyCorrect rest' (letters word)).used).length < n := by
            rw [List.length_drop]
            omega
          have hbetween := hafter.between hends hready.keeps
          have hrun := hreturns.calls (ih _ hshorter hbetween rfl)
          simpa only [List.append_assoc, List.cons_append, List.nil_append] using hrun

/-! ## A whole command line -/

theorem make_eq (argv : List JString) (optstring : JString) (posixlyCorrect : Bool) :
    ∃ inner ordering, make argv optstring posixlyCorrect =
        { argv, optstring := inner, ordering, posixlyCorrect } ∧
      (posixlyCorrect = true → ordering ≠ .permute) := by
  unfold make
  simp only
  generalize (if optstring.length = 0 then [space] else optstring) = optstring
  by_cases hdash : optstring.head? = some dash
  · rw [if_pos hdash]
    exact ⟨_, _, rfl, fun _ h => by cases h⟩
  · rw [if_neg hdash]
    by_cases hplus : optstring.head? = some 0x2B
    · rw [if_pos hplus]
      exact ⟨_, _, rfl, fun _ h => by cases h⟩
    · rw [if_neg hplus]
      refine ⟨_, _, rfl, fun hposix h => ?_⟩
      rw [if_pos hposix] at h
      cases h

/-- The calls of a new `Getopt` return what the scan finds and then -1. -/
theorem calls_make (argv : List JString) (optstring : JString) (posixlyCorrect : Bool)
    (hlong : ∀ c, takes (make argv optstring posixlyCorrect).optstring c ≠ .longOption) :
    Calls (make argv optstring posixlyCorrect)
      (scan (make argv optstring posixlyCorrect).settings argv).found
      (scan (make argv optstring posixlyCorrect).settings argv).options
      (scan (make argv optstring posixlyCorrect).settings argv).operands := by
  obtain ⟨inner, ordering, hmake, hposix⟩ := make_eq argv optstring posixlyCorrect
  rw [hmake] at hlong ⊢
  have hbetween : Between ⟨inner, ordering, posixlyCorrect⟩
      { argv, optstring := inner, ordering, posixlyCorrect } [] [] [] argv :=
    ⟨⟨rfl, rfl, rfl, rfl, rfl, rfl⟩, rfl, fun _ => ⟨rfl, rfl⟩⟩
  exact hbetween.calls hlong hposix

/-- **The calls of a new `Getopt`** return what the scan finds and then -1, and leave the words of
its options in front of its operands, with `optind` at the first operand. These are the words of the
command line, both in the order in which they stand there. -/
theorem calls_scan (argv : List JString) (optstring : JString) (posixlyCorrect : Bool)
    (hlong : ∀ c, takes (make argv optstring posixlyCorrect).optstring c ≠ .longOption) :
    let scanned := scan (make argv optstring posixlyCorrect).settings argv
    Calls (make argv optstring posixlyCorrect) scanned.found scanned.options scanned.operands ∧
      (scanned.options ++ scanned.operands).Perm argv ∧ scanned.options.Sublist argv ∧
      scanned.operands.Sublist argv :=
  ⟨calls_make argv optstring posixlyCorrect hlong, scan_rearranges _ argv⟩

/-- An operand between two options goes behind them. -/
theorem calls_scan_operand_between :
    let argv := ["-d", "alice", "-s", "host"].map jstring
    let scanned := scan (make argv (jstring "ds:p:") false).settings argv
    Calls (make argv (jstring "ds:p:") false) scanned.found scanned.options scanned.operands ∧
      (scanned.options ++ scanned.operands).Perm argv ∧ scanned.options.Sublist argv ∧
      scanned.operands.Sublist argv :=
  calls_scan _ _ _ (takes_ne_longOption (by decide))

end Getopt

end DistributedSystems.Lab
