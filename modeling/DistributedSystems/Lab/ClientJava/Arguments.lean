import DistributedSystems.Lab.Gnu.Calls
import DistributedSystems.Lab.ClientJava.Methods

/-!
# The arguments of the client (`parseArguments` of `clientjava/client.java`)

The loop over the options ends on every command line, and nothing but a port that is no number can
throw in it. The server and the port are those of the last `-s` and the last `-p`, wherever these
stand (`parseArguments_eq`).
-/

namespace DistributedSystems.Lab

open Fs Support CommandLine

namespace Getopt

/-! ## The loop over the options -/

/-- `while ((c = g.getopt()) != -1)`, as far as the fuel lasts. The body sees `c` and `optarg`. -/
def whileOptions {σ : Type} (body : Found → σ → Except Uncaught σ) :
    Nat → Getopt → σ → Option (Except Uncaught (σ × Getopt))
  | 0, _, _ => none
  | fuel + 1, g, locals =>
    match g.getopt with
    | .error e => some (.error e)
    | .ok (c, g') =>
      if c = -1 then some (.ok (locals, g'))
      else
        match body ⟨c, g'.optarg⟩ locals with
        | .error e => some (.error e)
        | .ok locals' => whileOptions body fuel g' locals'

/-- The body over what is found. -/
def overFound {σ : Type} (body : Found → σ → Except Uncaught σ) :
    List Found → σ → Except Uncaught σ
  | [], locals => .ok locals
  | f :: found, locals =>
    match body f locals with
    | .error e => .error e
    | .ok locals' => overFound body found locals'

theorem whileOptions_calls {σ : Type} (body : Found → σ → Except Uncaught σ) {g : Getopt}
    {found : List Found} {options operands : List JString}
    (h : Calls g found options operands) {fuel : Nat} (hfuel : found.length < fuel) (locals : σ) :
    ∃ g', Finished g' options operands ∧
      whileOptions body fuel g locals =
        some ((overFound body found locals).map fun locals' => (locals', g')) := by
  obtain ⟨g₁, g', hreturns, hend, hfinished⟩ := h
  refine ⟨g', hfinished, ?_⟩
  induction hreturns generalizing fuel locals with
  | nil g =>
    obtain ⟨fuel, rfl⟩ := Nat.exists_eq_add_of_lt hfuel
    rw [List.length_nil, Nat.zero_add, whileOptions, hend]
    rfl
  | @cons g ga gb c found' hcall hc _ ih =>
    cases fuel with
    | zero => exact absurd hfuel (Nat.not_lt_zero _)
    | succ fuel =>
      rw [whileOptions, hcall]
      simp only [if_neg hc]
      rw [overFound]
      cases body ⟨c, ga.optarg⟩ locals with
      | error e => rfl
      | ok locals' => exact ih (Nat.lt_of_succ_lt_succ hfuel) locals' hend

end Getopt

open Getopt

/-! ## The client -/

/-- What is printed on the standard output. -/
inductive ArgumentOutput
  /-- `getopt() returned`, with the value. -/
  | returned (c : Int)
  | portRange
deriving DecidableEq, Repr

/-- `_server`, `_port` and what is printed. -/
structure Arguments where
  server : Option JString := none
  port : Int := -1
  out : List ArgumentOutput := []
deriving DecidableEq

/-- `Integer.parseInt` of an argument, which may be null. -/
def parsePort (arg : Option JString) : Option Int :=
  arg.bind fun s => parseInt (Utf16.decode s)

def argumentOptions : JString := jstring "ds:p:"

/-- The body of the loop. -/
def understand (f : Found) (a : Arguments) : Except Uncaught Arguments :=
  if f.c = 0x73 then .ok { a with server := f.optarg }
  else if f.c = 0x70 then
    match parsePort f.optarg with
    | some port => .ok { a with port }
    | none => .error .numberFormat
  else .ok { a with out := a.out ++ [.returned f.c] }

/-- The tests after the loop. -/
def acceptArguments (a : Arguments) : Bool × Arguments :=
  if a.server = none then (false, a)
  else if a.port < 1024 ∨ a.port > 65535 then (false, { a with out := a.out ++ [.portRange] })
  else (true, a)

/-- `parseArguments`, as far as the fuel lasts. -/
def parseArguments (posixlyCorrect : Bool) (argv : List JString) (fuel : Nat) :
    Option (Except Uncaught (Bool × Arguments)) :=
  (whileOptions understand fuel (make argv argumentOptions posixlyCorrect) {}).map fun result =>
    result.map fun locals => acceptArguments locals.1

/-- What is found on a command line of the client. -/
def clientOptions (posixlyCorrect : Bool) (argv : List JString) : List Found :=
  (Getopt.scan (make argv argumentOptions posixlyCorrect).settings argv).found

/-- The last option with this letter. -/
def lastOption (letter : Int) (found : List Found) : Option Found :=
  found.reverse.find? fun f => f.c = letter

/-- The options that are only reported. -/
def reported (found : List Found) : List ArgumentOutput :=
  (found.filter fun f => f.c ≠ 0x73 ∧ f.c ≠ 0x70).map fun f => .returned f.c

/-- What the options say, read all at once. -/
def understood (found : List Found) : Except Uncaught (Bool × Arguments) :=
  if found.any fun f => f.c = 0x70 ∧ parsePort f.optarg = none then .error .numberFormat
  else .ok (acceptArguments
    { server := (lastOption 0x73 found).bind Found.optarg
      port := ((lastOption 0x70 found).bind fun f => parsePort f.optarg).getD (-1)
      out := reported found })

section Body

variable {f : Found} {found : List Found}

theorem lastOption_cons (letter : Int) (f : Found) (found : List Found) :
    lastOption letter (f :: found) =
      (lastOption letter found).or (if f.c = letter then some f else none) := by
  unfold lastOption
  rw [List.reverse_cons, List.find?_append, List.find?_singleton]
  simp only [decide_eq_true_eq]

theorem lastOption_some {letter : Int} (h : lastOption letter found = some f) :
    f ∈ found ∧ f.c = letter := by
  unfold lastOption at h
  exact ⟨List.mem_reverse.1 (List.mem_of_find?_eq_some h), by simpa using List.find?_some h⟩

/-- The body over the options is what they say. -/
theorem overFound_understand (found : List Found) (a : Arguments) :
    overFound understand found a =
      if found.any fun f => f.c = 0x70 ∧ parsePort f.optarg = none then .error .numberFormat
      else .ok
        { server := ((lastOption 0x73 found).map Found.optarg).getD a.server
          port := ((lastOption 0x70 found).bind fun f => parsePort f.optarg).getD a.port
          out := a.out ++ reported found } := by
  induction found generalizing a with
  | nil =>
    rw [overFound, if_neg (by decide)]
    simp [lastOption, reported]
  | cons f found ih =>
    rw [overFound, List.any_cons, lastOption_cons, lastOption_cons]
    by_cases hs : f.c = 0x73
    · have hp : ¬f.c = 0x70 := by omega
      have hstep : understand f a = .ok { a with server := f.optarg } := if_pos hs
      have hout : reported (f :: found) = reported found := by
        unfold reported
        rw [List.filter_cons_of_neg (by simp [hs])]
      rw [hstep, if_pos hs, if_neg hp, hout]
      simp only [hp, false_and, decide_false, Bool.false_or, ih, Option.or_none]
      cases lastOption 0x73 found with
      | none => rfl
      | some g => rfl
    · by_cases hp : f.c = 0x70
      · have hout : reported (f :: found) = reported found := by
          unfold reported
          rw [List.filter_cons_of_neg (by simp [hp])]
        have hstep : understand f a =
            match parsePort f.optarg with
            | some port => .ok { a with port }
            | none => .error .numberFormat := by
          unfold understand
          rw [if_neg hs, if_pos hp]
        rw [hstep, if_neg hs, if_pos hp, hout]
        cases hport : parsePort f.optarg with
        | none => simp [hp]
        | some port =>
          simp only [ih, hp, reduceCtorEq, and_false, decide_false, Bool.false_or,
            Option.or_none]
          by_cases hbad : (found.any fun f => f.c = 0x70 ∧ parsePort f.optarg = none) = true
          · rw [if_pos hbad, if_pos hbad]
          · rw [if_neg hbad, if_neg hbad]
            cases hlast : lastOption 0x70 found with
            | none => simp [hport]
            | some g =>
              -- a later port is a number as well
              obtain ⟨hmem, hg⟩ := lastOption_some hlast
              cases hlater : parsePort g.optarg with
              | none => exact absurd (List.any_eq_true.2 ⟨g, hmem, by simp [hg, hlater]⟩) hbad
              | some later => simp [hlater]
      · have hstep : understand f a = .ok { a with out := a.out ++ [.returned f.c] } := by
          unfold understand
          rw [if_neg hs, if_neg hp]
        have hout : reported (f :: found) = .returned f.c :: reported found := by
          unfold reported
          rw [List.filter_cons_of_pos (by simp [hs, hp])]
          rfl
        rw [hstep, if_neg hs, if_neg hp, hout]
        simp only [hp, false_and, decide_false, Bool.false_or, ih, Option.or_none,
          List.append_assoc, List.cons_append, List.nil_append]

theorem make_argumentOptions (argv : List JString) (posixlyCorrect : Bool) :
    (make argv argumentOptions posixlyCorrect).optstring = argumentOptions := rfl

/-- No letter of the client's option string takes a long option. -/
theorem takes_argumentOptions (argv : List JString) (posixlyCorrect : Bool) (c : UInt16) :
    takes (make argv argumentOptions posixlyCorrect).optstring c ≠ .longOption := by
  rw [make_argumentOptions]
  exact takes_ne_longOption (by decide) c

/-- On every command line the loop ends, and the arguments are what its options say. -/
theorem parseArguments_eq (posixlyCorrect : Bool) (argv : List JString) {fuel : Nat}
    (hfuel : Getopt.size argv < fuel) :
    parseArguments posixlyCorrect argv fuel =
      some (understood (clientOptions posixlyCorrect argv)) := by
  have hcalls := calls_make argv argumentOptions posixlyCorrect
    (takes_argumentOptions argv posixlyCorrect)
  have hlength := length_scan_le (make argv argumentOptions posixlyCorrect).settings argv
  obtain ⟨g', -, hloop⟩ :=
    whileOptions_calls understand hcalls (Nat.lt_of_le_of_lt hlength hfuel) {}
  unfold parseArguments understood clientOptions
  rw [hloop, overFound_understand]
  generalize (Getopt.scan _ argv).found = found
  by_cases hbad : (found.any fun f => f.c = 0x70 ∧ parsePort f.optarg = none) = true
  · rw [if_pos hbad, if_pos hbad]
    rfl
  · rw [if_neg hbad, if_neg hbad]
    cases lastOption 0x73 found with
    | none => rfl
    | some f => rfl

/-- The operand stands between the options. -/
theorem parseArguments_operand_between :
    Getopt.size (["-p8080", "alice", "-s", "host"].map jstring) < 24 ∧
      parseArguments false (["-p8080", "alice", "-s", "host"].map jstring) 24 =
        some (understood (clientOptions false (["-p8080", "alice", "-s", "host"].map jstring))) :=
  ⟨by decide, parseArguments_eq false _ (by decide)⟩

example : parseArguments false (["-p8080", "alice", "-s", "host"].map jstring) 24 =
    some (.ok (true, { server := some (jstring "host"), port := 8080 })) := by decide +kernel

end Body

end DistributedSystems.Lab
