import DistributedSystems.Lab.ClientJava.Framing
import DistributedSystems.Support.Splitting

/-!
# Command lines (`shell` of `clientjava/client.java`)

What the shell makes of a line. The words of a line are split at white space; the description of a
PUBLISH is cut out of the line by its position instead, three characters after the first blank and
then after the next one. That skips a user name of one character, and the description is exactly the
one of the line for such names only (`interpret_publish_iff`).
-/

namespace DistributedSystems.Lab

open Fs Support

/-- An exception that ends the shell when no `catch` is for it. -/
inductive Uncaught
  | nullPointer
  | stringIndexOutOfBounds
  | arrayIndexOutOfBounds
  | numberFormat
  | illegalArgument
deriving DecidableEq, Repr

namespace CommandLine

/-! ## Strings -/

def jstring (s : String) : JString := Utf16.encode s.toList

/-- The character class `\s`. -/
def isWhite (u : UInt16) : Bool := u.toNat = 0x20 ∨ 0x09 ≤ u.toNat ∧ u.toNat ≤ 0x0D

def space : UInt16 := 0x20

def indexOf (s : JString) (ch : UInt16) : Int := if ch ∈ s then s.idxOf ch else -1

def substring (s : JString) (beginIndex : Int) : Except Uncaught JString :=
  if 0 ≤ beginIndex ∧ beginIndex ≤ s.length then .ok (s.drop beginIndex.toNat)
  else .error .stringIndexOutOfBounds

theorem indexOf_word {word : JString} {ch : UInt16} (h : ch ∉ word) (rest : JString) :
    indexOf (word ++ ch :: rest) ch = word.length := by
  unfold indexOf
  rw [if_pos (by simp), List.idxOf_append_of_notMem h, List.idxOf_cons_self, Nat.add_zero]

theorem substring_append (s t : JString) : substring (s ++ t) s.length = .ok t := by
  unfold substring
  rw [if_pos ⟨by omega, by rw [List.length_append]; omega⟩, Int.toNat_natCast, List.drop_left]

/-! ## Lines -/

/-- What a line asks for. -/
inductive Command
  | register (user : JString)
  | unregister (user : JString)
  | connect (user : JString)
  | disconnect (user : JString)
  | publish (user fileName description : JString)
  | delete (fileName : JString)
  | listUsers
  | listContent (userName : JString)
  | getFile (userName remoteFileName localFileName : JString)
  | quit
  /-- The usage is printed. -/
  | syntaxError
  | notValid (word : JString)
  /-- There is no word. -/
  | nothing
deriving DecidableEq

/-- The description that a PUBLISH has in the line. -/
def descriptionOf (input : JString) : Except Uncaught JString := do
  let rest ← substring input (indexOf input space + 3)
  substring rest (indexOf rest space + 1)

/-- A command without arguments. -/
def noArgument (command : Command) : List JString → Command
  | [] => command
  | _ => .syntaxError

/-- A command with one argument. -/
def oneArgument (command : JString → Command) : List JString → Command
  | [argument] => command argument
  | _ => .syntaxError

def publishLine (input : JString) : List JString → Except Uncaught Command
  | user :: fileName :: _ :: _ => do
    let description ← descriptionOf input
    return .publish user fileName description
  | _ => .ok .syntaxError

def getFileLine : List JString → Command
  | [userName, remoteFileName, localFileName] =>
    .getFile userName remoteFileName localFileName
  | _ => .syntaxError

/-- The name of a command as the shell knows it. -/
def nameOf (type : Commands) : JString := Utf16.encode type.name

/-- What the shell makes of a line, under the upper case of the default locale. -/
def interpret (toUpperCase : JString → JString) (input : JString) : Except Uncaught Command :=
  match splitText isWhite input with
  | [] => .ok .nothing
  | word :: arguments =>
    let command := toUpperCase word
    if command = nameOf .register then .ok (oneArgument .register arguments)
    else if command = nameOf .unregister then .ok (oneArgument .unregister arguments)
    else if command = nameOf .connect then .ok (oneArgument .connect arguments)
    else if command = nameOf .disconnect then .ok (oneArgument .disconnect arguments)
    else if command = nameOf .publish then publishLine input arguments
    else if command = nameOf .delete then .ok (oneArgument .delete arguments)
    else if command = nameOf .listUsers then .ok (noArgument .listUsers arguments)
    else if command = nameOf .listContent then .ok (oneArgument .listContent arguments)
    else if command = nameOf .getFile then .ok (getFileLine arguments)
    else if command = jstring "QUIT" then .ok (noArgument .quit arguments)
    else .ok (.notValid word)

/-! ## PUBLISH -/

/-- No white space in a word. -/
def IsWord (word : JString) : Prop := word ≠ [] ∧ ∀ u ∈ word, isWhite u = false

theorem isWord_iff {word : JString} :
    (!word.isEmpty && word.all (! isWhite ·)) = true ↔ IsWord word := by
  simp [IsWord]

instance : DecidablePred IsWord := fun _ => decidable_of_iff _ isWord_iff

theorem IsWord.space_notMem {word : JString} (h : IsWord word) : space ∉ word := by
  intro hmem
  exact absurd (h.2 space hmem) (by decide)

/-- The line is understood, and it is no PUBLISH. -/
def Other (r : Except Uncaught Command) : Prop :=
  ∃ command, r = .ok command ∧ ∀ user fileName d, command ≠ .publish user fileName d

theorem Other.ite {P : Prop} [Decidable P] {r r' : Except Uncaught Command} (h : Other r)
    (h' : Other r') : Other (if P then r else r') := by
  split
  · exact h
  · exact h'

theorem other_noArgument {command : Command}
    (h : ∀ user fileName d, command ≠ .publish user fileName d) (arguments : List JString) :
    Other (.ok (noArgument command arguments)) := by
  unfold noArgument
  split
  · exact ⟨_, rfl, h⟩
  · exact ⟨_, rfl, fun _ _ _ => Command.noConfusion⟩

theorem other_oneArgument {command : JString → Command}
    (h : ∀ argument user fileName d, command argument ≠ .publish user fileName d)
    (arguments : List JString) : Other (.ok (oneArgument command arguments)) := by
  unfold oneArgument
  split
  · exact ⟨_, rfl, h _⟩
  · exact ⟨_, rfl, fun _ _ _ => Command.noConfusion⟩

theorem other_getFileLine (arguments : List JString) : Other (.ok (getFileLine arguments)) := by
  unfold getFileLine
  split <;> exact ⟨_, rfl, fun _ _ _ => Command.noConfusion⟩

/-- A line is a PUBLISH, whose arguments decide what it is, or it is something else. -/
theorem interpret_cases (toUpperCase : JString → JString) {input word : JString}
    {arguments : List JString} (hsplit : splitText isWhite input = word :: arguments) :
    (toUpperCase word = nameOf .publish ∧
        interpret toUpperCase input = publishLine input arguments) ∨
      toUpperCase word ≠ nameOf .publish ∧ Other (interpret toUpperCase input) := by
  unfold interpret
  rw [hsplit]
  dsimp only
  by_cases hname : toUpperCase word = nameOf .publish
  · refine Or.inl ⟨hname, ?_⟩
    rw [hname, if_neg (by decide), if_neg (by decide), if_neg (by decide), if_neg (by decide),
      if_pos rfl]
  · refine Or.inr ⟨hname, ?_⟩
    have hone : ∀ {command : JString → Command},
        (∀ argument user fileName d, command argument ≠ .publish user fileName d) →
          Other (.ok (oneArgument command arguments)) := fun h => other_oneArgument h arguments
    have hquit : Other (.ok (noArgument .quit arguments)) :=
      other_noArgument (fun _ _ _ => Command.noConfusion) arguments
    have hlist : Other (.ok (noArgument .listUsers arguments)) :=
      other_noArgument (fun _ _ _ => Command.noConfusion) arguments
    have hinvalid : Other (.ok (.notValid word)) := ⟨_, rfl, fun _ _ _ => Command.noConfusion⟩
    rw [if_neg hname]
    refine .ite (hone fun _ _ _ _ => Command.noConfusion) ?_
    refine .ite (hone fun _ _ _ _ => Command.noConfusion) ?_
    refine .ite (hone fun _ _ _ _ => Command.noConfusion) ?_
    refine .ite (hone fun _ _ _ _ => Command.noConfusion) ?_
    refine .ite (hone fun _ _ _ _ => Command.noConfusion) ?_
    refine .ite hlist ?_
    refine .ite (hone fun _ _ _ _ => Command.noConfusion) ?_
    exact .ite (other_getFileLine arguments) (.ite hquit hinvalid)

/-- Only PUBLISH publishes. -/
theorem interpret_publish {toUpperCase : JString → JString} {input word : JString}
    {arguments : List JString} (hsplit : splitText isWhite input = word :: arguments)
    {user fileName d : JString} :
    interpret toUpperCase input = .ok (.publish user fileName d) ↔
      toUpperCase word = nameOf .publish ∧
        publishLine input arguments = .ok (.publish user fileName d) := by
  rcases interpret_cases toUpperCase hsplit with ⟨hname, heq⟩ | ⟨hname, command, heq, hother⟩
  · rw [heq]
    exact (and_iff_right hname).symm
  · refine iff_of_false (fun h => ?_) fun h => hname h.1
    exact hother user fileName d (Except.ok.inj (heq.symm.trans h))

theorem substring_after_space {word : JString} (h : space ∉ word) (rest : JString) :
    substring (word ++ space :: rest) (indexOf (word ++ space :: rest) space + 1) = .ok rest := by
  have hsplit : word ++ space :: rest = (word ++ [space]) ++ rest := by simp
  have hlength : (word.length : Int) + 1 = ((word ++ [space]).length : Nat) := by simp
  rw [indexOf_word h, hlength, hsplit, substring_append]

section Publish

variable {toUpperCase : JString → JString} {word user fileName d : JString}

/-- The first blank and the two characters after it are passed over, and then the next blank. -/
theorem descriptionOf_eq (hword : space ∉ word) {a b : UInt16} {rest next : JString}
    (hnext : space ∉ next) (hrest : rest = next ++ space :: d) :
    descriptionOf (word ++ space :: a :: b :: rest) = .ok d := by
  have hsplit : word ++ space :: a :: b :: rest = (word ++ [space, a, b]) ++ rest := by simp
  have hlength : (word.length : Int) + 3 = ((word ++ [space, a, b]).length : Nat) := by simp
  unfold descriptionOf
  rw [indexOf_word hword, hlength, hsplit, substring_append, hrest]
  exact substring_after_space hnext d

/-- The file name comes with the description unless the user has one character. -/
theorem descriptionOf_line (hword : IsWord word) (huser : IsWord user) (hfile : IsWord fileName) :
    descriptionOf (word ++ space :: user ++ space :: fileName ++ space :: d) =
      .ok (if user.length = 1 then d else fileName ++ space :: d) := by
  simp only [List.append_assoc, List.cons_append]
  cases user with
  | nil => exact absurd rfl huser.1
  | cons a user =>
    cases user with
    | nil => exact descriptionOf_eq hword.space_notMem hfile.space_notMem rfl
    | cons b user =>
      have huser' : space ∉ user := fun hmem => huser.space_notMem (by simp [hmem])
      rw [if_neg (by simp)]
      exact descriptionOf_eq hword.space_notMem huser' rfl

theorem split_line (hword : IsWord word) (huser : IsWord user) (hfile : IsWord fileName)
    (hd : ∃ u ∈ d.head?, isWhite u = false) :
    ∃ first more, splitText isWhite (word ++ space :: user ++ space :: fileName ++ space :: d) =
      word :: user :: fileName :: first :: more := by
  have hspaces : isWhite space = true := rfl
  obtain ⟨u, hu, hspace⟩ := hd
  cases d with
  | nil => cases hu
  | cons v d =>
    obtain rfl := Option.some.inj hu
    obtain ⟨first, more, hmore⟩ := List.exists_cons_of_ne_nil (pieces_ne_nil hspace d)
    refine ⟨first, more, ?_⟩
    simp only [List.append_assoc, List.cons_append]
    rw [splitText_word hword.1 hword.2 hspaces, pieces_word huser.1 huser.2 hspaces,
      pieces_word hfile.1 hfile.2 hspaces, hmore]

/-- **PUBLISH is called with the words of the line and its description** exactly for users of one
character, when the default locale knows the command. -/
theorem interpret_publish_iff (hword : IsWord word) (huser : IsWord user)
    (hfile : IsWord fileName) (hd : ∃ u ∈ d.head?, isWhite u = false) :
    interpret toUpperCase (word ++ space :: user ++ space :: fileName ++ space :: d) =
        .ok (.publish user fileName d) ↔
      toUpperCase word = nameOf .publish ∧ user.length = 1 := by
  obtain ⟨first, more, hsplit⟩ := split_line hword huser hfile hd
  rw [interpret_publish hsplit]
  refine and_congr_right fun _ => ?_
  unfold publishLine
  dsimp only
  rw [descriptionOf_line hword huser hfile]
  constructor
  · intro h
    by_contra hlength
    rw [if_neg hlength] at h
    have hd' : fileName ++ space :: d = d := (Command.publish.inj (Except.ok.inj h)).2.2
    have hlen := congrArg List.length hd'
    rw [List.length_append, List.length_cons] at hlen
    omega
  · intro hlength
    rw [if_pos hlength]
    rfl

end Publish

/-- The upper case of letters that are ASCII. -/
def upperCase (s : JString) : JString :=
  s.map fun u => if 0x61 ≤ u.toNat ∧ u.toNat ≤ 0x7A then u - 0x20 else u

theorem publish_u :
    interpret upperCase (jstring "publish u f some text ") =
      .ok (.publish (jstring "u") (jstring "f") (jstring "some text ")) :=
  (@interpret_publish_iff upperCase (jstring "publish") (jstring "u") (jstring "f")
    (jstring "some text ") (by decide) (by decide) (by decide) ⟨_, rfl, by decide⟩).2 (by decide)

/-- The name of the file gets into the description. -/
theorem publish_alice :
    interpret upperCase (jstring "PUBLISH alice f text") =
        .ok (.publish (jstring "alice") (jstring "f") (jstring "f text")) ∧
      ¬ ∀ word user fileName d : JString, upperCase word = nameOf .publish → IsWord word →
        IsWord user → IsWord fileName → (∃ u ∈ d.head?, isWhite u = false) →
          interpret upperCase (word ++ space :: user ++ space :: fileName ++ space :: d) =
            .ok (.publish user fileName d) := by
  have halice : interpret upperCase (jstring "PUBLISH alice f text") =
      .ok (.publish (jstring "alice") (jstring "f") (jstring "f text")) := by rfl
  refine ⟨halice, fun h => ?_⟩
  have hd := h (jstring "PUBLISH") (jstring "alice") (jstring "f") (jstring "text") (by decide)
    (by decide) (by decide) (by decide) ⟨_, rfl, by decide⟩
  have hcontra := halice.symm.trans hd
  exact absurd (Command.publish.inj (Except.ok.inj hcontra)).2.2 (by decide)

end CommandLine

end DistributedSystems.Lab
