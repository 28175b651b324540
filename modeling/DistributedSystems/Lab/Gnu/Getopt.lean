import DistributedSystems.Support.Exchange
import DistributedSystems.Lab.ClientJava.CommandLine

/-!
# The scan of a command line (`gnu/getopt/Getopt.java`)

`getopt` returns the options of a command line one at a time, wherever they stand between the other
arguments, and meanwhile exchanges segments of `argv` so that in the end the options stand in front.
A `Getopt` for short options is modelled, as the client makes it: `long_options` is null.
-/

namespace DistributedSystems.Lab

open Fs Support CommandLine

/-- What is done with the arguments that are no options. -/
inductive ArgvOrdering
  | requireOrder
  | permute
  | returnInOrder
deriving DecidableEq, Repr

/-- The messages on the standard error. Their texts depend on the locale. -/
inductive GetoptMessage
  | illegal (c : UInt16)
  | invalid (c : UInt16)
  | requires2 (c : UInt16)
deriving DecidableEq, Repr

structure Getopt where
  argv : List JString
  optstring : JString
  ordering : ArgvOrdering
  posixlyCorrect : Bool
  opterr : Bool := true
  optarg : Option JString := none
  optind : Nat := 0
  optopt : UInt16 := 0x3F
  /-- What is left of the word whose letters are being returned. -/
  nextchar : Option JString := none
  firstNonopt : Nat := 1
  lastNonopt : Nat := 1
  endparse : Bool := false
  err : List GetoptMessage := []
deriving DecidableEq

namespace Getopt

/-! ## Words and letters -/

def dash : UInt16 := 0x2D

def colon : UInt16 := 0x3A

def question : UInt16 := 0x3F

def dashes : JString := [dash, dash]

def isNonopt (word : JString) : Bool := word = [] || word.head? ≠ some dash || word = [dash]

/-- The letters of a word of options. -/
def letters (word : JString) : JString :=
  if dashes.isPrefixOf word then word.drop 2 else word.drop 1

/-- What the option string says of a letter. -/
inductive Takes
  | invalid
  | nothing
  | optional
  | required
  /-- `W;`: the argument is the name of a long option. -/
  | longOption
deriving DecidableEq, Repr

/-- The tests of `temp`, the option string from its first `c` on. -/
def takes (optstring : JString) (c : UInt16) : Takes :=
  if c ∉ optstring ∨ c = colon then .invalid
  else
    let temp := optstring.drop (optstring.idxOf c)
    if temp[0]? = some 0x57 ∧ temp[1]? = some 0x3B then .longOption
    else if temp[1]? = some colon then
      if temp[2]? = some colon then .optional else .required
    else .nothing

theorem takes_ne_longOption {optstring : JString} (h : 0x57 ∉ optstring) (c : UInt16) :
    takes optstring c ≠ .longOption := by
  intro hlong
  unfold takes at hlong
  by_cases hc : c ∉ optstring ∨ c = colon
  · rw [if_pos hc] at hlong
    cases hlong
  · rw [if_neg hc] at hlong
    simp only at hlong
    split_ifs at hlong with hW
    exact h (List.mem_of_mem_drop (List.mem_of_getElem? hW.1))

/-- What is returned for a letter whose argument is missing. -/
def missing (optstring : JString) : UInt16 :=
  if optstring.head? = some colon then colon else question

/-! ## The source -/

/-- The constructor for short options. `posixlyCorrect` is whether `gnu.posixly_correct` is set. -/
def make (argv : List JString) (optstring : JString) (posixlyCorrect : Bool) : Getopt :=
  let optstring := if optstring.length = 0 then [space] else optstring
  let inner := if optstring.length > 1 then optstring.drop 1 else optstring
  if optstring.head? = some dash then
    { argv, optstring := inner, ordering := .returnInOrder, posixlyCorrect }
  else if optstring.head? = some 0x2B then
    { argv, optstring := inner, ordering := .requireOrder, posixlyCorrect }
  else
    { argv, optstring, ordering := if posixlyCorrect then .requireOrder else .permute,
      posixlyCorrect }

/-- `argv[optind]`. -/
def element (g : Getopt) : Except Uncaught JString :=
  match g.argv[g.optind]? with
  | some word => .ok word
  | none => .error .arrayIndexOutOfBounds

def exchange (g : Getopt) : Except Uncaught Getopt :=
  match exchangeSegments g.argv g.firstNonopt g.lastNonopt g.optind with
  | some argv =>
    .ok { g with
      argv
      firstNonopt := g.firstNonopt + (g.optind - g.lastNonopt)
      lastNonopt := g.optind }
  | none => .error .arrayIndexOutOfBounds

/-- `last_nonopt` and `first_nonopt` are not after `optind`. -/
def bounded (g : Getopt) : Getopt :=
  { g with
    lastNonopt := if g.lastNonopt > g.optind then g.optind else g.lastNonopt
    firstNonopt := if g.firstNonopt > g.optind then g.optind else g.firstNonopt }

/-- The loop over the non-options at the front of the words. -/
def skipNonopts : List JString → Nat → Nat
  | [], optind => optind
  | word :: words, optind => if isNonopt word then skipNonopts words (optind + 1) else optind

/-- The options after the non-options change places with these, and more non-options are skipped. -/
def permuteNonopts (g : Getopt) : Except Uncaught Getopt := do
  let g ←
    if g.firstNonopt ≠ g.lastNonopt ∧ g.lastNonopt ≠ g.optind then g.exchange
    else if g.lastNonopt ≠ g.optind then pure { g with firstNonopt := g.optind }
    else pure g
  let optind := skipNonopts (g.argv.drop g.optind) g.optind
  return { g with optind, lastNonopt := optind }

/-- A `--` ends the options. -/
def passDashes (g : Getopt) : Except Uncaught Getopt := do
  if g.optind = g.argv.length then return g
  if (← g.element) ≠ dashes then return g
  let g := { g with optind := g.optind + 1 }
  let g ←
    if g.firstNonopt ≠ g.lastNonopt ∧ g.lastNonopt ≠ g.optind then g.exchange
    else if g.firstNonopt = g.lastNonopt then pure { g with firstNonopt := g.optind }
    else pure g
  return { g with lastNonopt := g.argv.length, optind := g.argv.length }

/-- The words are done, or the next one is. With no value to return it is a word of options. -/
def nextWord (g : Getopt) : Except Uncaught (Option Int × Getopt) := do
  if g.optind = g.argv.length then
    return (some (-1),
      if g.firstNonopt ≠ g.lastNonopt then { g with optind := g.firstNonopt } else g)
  let word ← g.element
  if isNonopt word then
    if g.ordering = .requireOrder then return (some (-1), g)
    return (some 1, { g with optarg := some word, optind := g.optind + 1 })
  return (none, { g with nextchar := some (letters word) })

/-- The part of `getopt` for when there are no letters left. -/
def resume (g : Getopt) : Except Uncaught (Option Int × Getopt) := do
  let g := g.bounded
  let g ← if g.ordering = .permute then g.permuteNonopts else pure g
  let g ← g.passDashes
  g.nextWord

def complain (g : Getopt) (message : GetoptMessage) : Getopt :=
  if g.opterr then { g with err := g.err ++ [message] } else g

/-- The argument of `c` is missing. -/
def requires (g : Getopt) (c : UInt16) : Int × Getopt :=
  ((missing g.optstring).toNat, { g.complain (.requires2 c) with optopt := c })

/-- An option whose argument is not in the same word. -/
def nextArgument (g : Getopt) (c : UInt16) : Except Uncaught (Int × Getopt) := do
  if g.optind = g.argv.length then return g.requires c
  let word ← g.element
  let g := { g with optarg := some word, optind := g.optind + 1 }
  if g.posixlyCorrect ∧ word = dashes then
    if g.optind = g.argv.length then return g.requires c
    let word ← g.element
    return (c.toNat, { g with
      optarg := some word
      optind := g.optind + 1
      firstNonopt := g.optind + 1
      lastNonopt := g.argv.length
      endparse := true
      nextchar := none })
  return (c.toNat, { g with nextchar := none })

/-- What the option string says of `c` is done, with the letters after it in `nextchar`. -/
def option (g : Getopt) (c : UInt16) (nextchar : JString) : Except Uncaught (Int × Getopt) :=
  match takes g.optstring c with
  | .invalid =>
    .ok (question.toNat,
      { g.complain (if g.posixlyCorrect then .illegal c else .invalid c) with optopt := c })
  | .longOption =>
    -- `checkLongOption` reads the length of `long_options`
    if nextchar = [] ∧ g.optind = g.argv.length then .ok (g.requires c) else .error .nullPointer
  | .optional =>
    .ok (c.toNat,
      if nextchar ≠ [] then
        { g with optarg := some nextchar, optind := g.optind + 1, nextchar := none }
      else { g with optarg := none, nextchar := none })
  | .required =>
    if nextchar ≠ [] then
      .ok (c.toNat, { g with optarg := some nextchar, optind := g.optind + 1, nextchar := none })
    else g.nextArgument c
  | .nothing => .ok (c.toNat, g)

/-- The part of `getopt` for the next letter. -/
def shortOption (g : Getopt) : Except Uncaught (Int × Getopt) :=
  match g.nextchar with
  | none => .error .nullPointer
  | some [] => .error .stringIndexOutOfBounds
  | some (c :: nextchar) =>
    { g with
      nextchar := some nextchar
      optind := if nextchar = [] then g.optind + 1 else g.optind }.option c nextchar

def getopt (g : Getopt) : Except Uncaught (Int × Getopt) :=
  let g := { g with optarg := none }
  if g.endparse then .ok (-1, g)
  else if g.nextchar.getD [] = [] then
    match g.resume with
    | .error e => .error e
    | .ok (some c, g) => .ok (c, g)
    | .ok (none, g) => g.shortOption
  else g.shortOption

end Getopt

end DistributedSystems.Lab
