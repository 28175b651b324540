import DistributedSystems.Lab.Lib.Lines
import DistributedSystems.Lab.Lib.LinkedList
import DistributedSystems.Support.Utf16

/-!
# Framing of requests (`clientjava/client.java`)

The client writes the name of a command and its arguments, each ended by a NUL, and the server reads
them back field by field. `parseString` cuts a long argument to 256 characters and then puts the NUL
on the 256th byte, so the bytes after it, its `excess`, stay in front of the next field.
`readLines_wire` says what the server reads in general, and `framing_round_trip_iff` when that is
what the client meant.
-/

namespace DistributedSystems.Lab

open Fs Support

/-- A Java `String`: its UTF-16 code units. -/
abbrev JString := List UInt16

def utf8 (cs : List Char) : Bytes := cs.flatMap String.utf8EncodeChar

/-- `String.getBytes` with UTF-8 as the default charset. -/
def getBytes (s : JString) : Bytes := utf8 (Utf16.decode s)

def messageSize : Nat := 256

inductive Commands
  | register
  | unregister
  | connect
  | disconnect
  | publish
  | delete
  | listUsers
  | listContent
  | getFile
deriving DecidableEq, Repr

/-- The name of a constant of the enumeration. -/
def Commands.name : Commands → List Char
  | register => "REGISTER".toList
  | unregister => "UNREGISTER".toList
  | connect => "CONNECT".toList
  | disconnect => "DISCONNECT".toList
  | publish => "PUBLISH".toList
  | delete => "DELETE".toList
  | listUsers => "LIST_USERS".toList
  | listContent => "LIST_CONTENT".toList
  | getFile => "GET_FILE".toList

def parseString (userString : JString) : Bytes :=
  if userString.length > messageSize - 1 then
    (getBytes (userString.take messageSize)).set (messageSize - 1) nul
  else getBytes (userString ++ [0])

def parseCommand (type : Commands) : Bytes := getBytes (Utf16.encode type.name ++ [0])

/-- An argument: text that holds neither of the two terminators. -/
structure Argument where
  chars : List Char
  plain : ∀ c ∈ chars, c ≠ '\x00' ∧ c ≠ '\n'

namespace Argument

def jstring (a : Argument) : JString := Utf16.encode a.chars

def utf8 (a : Argument) : Bytes := Lab.utf8 a.chars

/-- The bytes of a long argument that come after its NUL. -/
def excess (a : Argument) : Bytes :=
  if a.jstring.length > messageSize - 1 then
    (getBytes (a.jstring.take messageSize)).drop messageSize
  else []

/-- The bytes that come before it. -/
def sent (a : Argument) : Bytes :=
  if a.jstring.length > messageSize - 1 then
    (getBytes (a.jstring.take messageSize)).take (messageSize - 1)
  else a.utf8

end Argument

/-- The bytes that the client writes for an operation. -/
def wire (type : Commands) (arguments : List Argument) : Bytes :=
  parseCommand type ++ arguments.flatMap fun a => parseString a.jstring

/-- Successive calls of `readLine`: the fields, and what is left to read. The buffers may hold
anything before. -/
def readLines (buffers : Nat → Buffer maxSize) : Nat → List ReadOutcome →
    List Bytes × List ReadOutcome
  | 0, input => ([], input)
  | k + 1, input =>
    let r := readLine maxSize (buffers k) input
    let l := readLines buffers k r.rest
    (r.buffer.text :: l.1, l.2)

/-! ## Encodings -/

theorem utf8_append (cs ds : List Char) : utf8 (cs ++ ds) = utf8 cs ++ utf8 ds :=
  List.flatMap_append

theorem utf8_snoc_nul (cs : List Char) : utf8 (cs ++ ['\x00']) = utf8 cs ++ [nul] := by
  rw [utf8_append]; rfl

theorem encode_snoc_nul (cs : List Char) :
    Utf16.encode cs ++ [0] = Utf16.encode (cs ++ ['\x00']) := by
  simp only [Utf16.encode, List.flatMap_append]
  rfl

/-- The bytes of a character other than the terminators are neither of them. -/
theorem plain_utf8EncodeChar {c : Char} (h0 : c ≠ '\x00') (h1 : c ≠ '\n') :
    Plain (String.utf8EncodeChar c) := by
  have hn0 : c.val.toNat ≠ 0 := by
    intro h
    exact h0 (Char.ext (UInt32.toNat_inj.1 h))
  have hn1 : c.val.toNat ≠ 10 := by
    intro h
    exact h1 (Char.ext (UInt32.toNat_inj.1 h))
  intro b hb hter
  have hval : b.toNat = 10 ∨ b.toNat = 0 := by
    rcases hter with rfl | rfl
    · exact Or.inl rfl
    · exact Or.inr rfl
  have hmod : ∀ n : Nat, (UInt8.ofNat n).toNat = n % 256 := by
    intro n
    exact UInt8.toNat_ofNat'
  simp only [String.utf8EncodeChar] at hb
  split_ifs at hb <;> simp only [List.mem_cons, List.not_mem_nil, or_false] at hb
  · subst hb
    rw [hmod] at hval
    omega
  · rcases hb with rfl | rfl <;> rw [hmod] at hval <;> omega
  · rcases hb with rfl | rfl | rfl <;> rw [hmod] at hval <;> omega
  · rcases hb with rfl | rfl | rfl | rfl <;> rw [hmod] at hval <;> omega

theorem plain_utf8 {cs : List Char} (h : ∀ c ∈ cs, c ≠ '\x00' ∧ c ≠ '\n') : Plain (utf8 cs) := by
  intro b hb
  obtain ⟨c, hc, hb⟩ := List.mem_flatMap.1 hb
  exact plain_utf8EncodeChar (h c hc).1 (h c hc).2 b hb

theorem length_encode_le_utf8 (cs : List Char) : (Utf16.encode cs).length ≤ (utf8 cs).length :=
  Utf16.length_encode_le cs

/-- The bytes of the first `messageSize` characters of a long argument: there are enough of them for
the NUL, and up to it they are the argument's own. -/
theorem getBytes_take_messageSize {a : Argument} (h : a.jstring.length > messageSize - 1) :
    messageSize ≤ (getBytes (a.jstring.take messageSize)).length ∧
      (getBytes (a.jstring.take messageSize)).take (messageSize - 1) =
        a.utf8.take (messageSize - 1) ∧
      Plain (getBytes (a.jstring.take messageSize)) := by
  have hlen : (a.jstring.take messageSize).length = messageSize := by
    rw [List.length_take]; omega
  have hcut : ∀ k, Plain (utf8 (a.chars.take k)) :=
    fun k => plain_utf8 fun c hc => a.plain c (List.mem_of_mem_take hc)
  have hown : ∀ k, messageSize - 1 ≤ (utf8 (a.chars.take k)).length →
      a.utf8.take (messageSize - 1) = (utf8 (a.chars.take k)).take (messageSize - 1) := by
    intro k hk
    have hsplit : a.utf8 = utf8 (a.chars.take k) ++ utf8 (a.chars.drop k) := by
      rw [← utf8_append, List.take_append_drop]; rfl
    rw [hsplit, List.take_append_of_le_length hk]
  obtain ⟨k, ⟨henc, hdec⟩ | ⟨u, henc, hdec⟩⟩ := Utf16.decode_take_encode messageSize a.chars
  · have hk := length_encode_le_utf8 (a.chars.take k)
    rw [← henc, ← Argument.jstring, hlen] at hk
    unfold getBytes
    rw [Argument.jstring, hdec]
    exact ⟨hk, (hown k (by omega)).symm, hcut k⟩
  · -- the cut went through a pair, whose first half becomes a question mark
    have hk := length_encode_le_utf8 (a.chars.take k)
    have hunits : (Utf16.encode (a.chars.take k)).length + 1 = messageSize := by
      rw [← hlen, Argument.jstring, henc, List.length_append, List.length_singleton]
    have hmark : utf8 ['?'] = [63] := by decide
    unfold getBytes
    rw [Argument.jstring, hdec, utf8_append, hmark]
    refine ⟨by rw [List.length_append, List.length_singleton]; omega, ?_, ?_⟩
    · rw [List.take_append_of_le_length (by omega), hown k (by omega)]
    · intro b hb
      rcases List.mem_append.1 hb with hb | hb
      · exact hcut k b hb
      · rw [List.mem_singleton.1 hb]; decide

namespace Argument

variable (a : Argument)

theorem plain_utf8 : Plain a.utf8 := Lab.plain_utf8 a.plain

theorem take_sent : a.sent.take (messageSize - 1) = a.utf8.take (messageSize - 1) := by
  unfold sent
  split
  · rename_i h
    rw [List.take_take, Nat.min_self, (getBytes_take_messageSize h).2.1]
  · rfl

theorem plain_sent : Plain a.sent := by
  unfold sent
  split
  · rename_i h
    exact (getBytes_take_messageSize h).2.2.take _
  · exact a.plain_utf8

theorem plain_excess : Plain a.excess := by
  unfold excess
  split
  · rename_i h
    exact fun b hb => (getBytes_take_messageSize h).2.2 b (List.mem_of_mem_drop hb)
  · exact fun b hb => absurd hb (by simp)

end Argument

/-- What the client writes for an argument: a field, and then its excess. -/
theorem parseString_eq (a : Argument) : parseString a.jstring = a.sent ++ nul :: a.excess := by
  unfold parseString Argument.sent Argument.excess
  split
  · rename_i h
    have hlt : messageSize - 1 < (getBytes (a.jstring.take messageSize)).length := by
      have := (getBytes_take_messageSize h).1
      have : 0 < messageSize := by decide
      omega
    rw [List.set_eq_take_append_cons_drop, if_pos hlt]
    rfl
  · unfold getBytes
    rw [Argument.jstring, encode_snoc_nul, Utf16.decode_encode, utf8_snoc_nul]
    rfl

/-- Whatever the units are, there is a NUL for the server to find. -/
theorem nul_mem_parseString (userString : JString) : nul ∈ parseString userString := by
  unfold parseString
  split
  · rename_i h
    have hlen : messageSize ≤ (getBytes (userString.take messageSize)).length := by
      have htake : (userString.take messageSize).length = messageSize := by
        rw [List.length_take]
        omega
      calc messageSize = (userString.take messageSize).length := htake.symm
        _ ≤ (Utf16.encode (Utf16.decode (userString.take messageSize))).length :=
          Utf16.length_le_encode_decode _
        _ ≤ (getBytes (userString.take messageSize)).length := Utf16.length_encode_le _
    have hpos : 0 < messageSize := by decide
    exact List.mem_set (by omega) nul
  · have hlow : ¬ Utf16.IsLow 0 := by decide
    have hzero : Utf16.ofUnit 0 = '\x00' := by decide
    unfold getBytes
    rw [Utf16.decode_snoc hlow, hzero, utf8_snoc_nul]
    simp

theorem parseCommand_eq (type : Commands) : parseCommand type = utf8 type.name ++ [nul] := by
  unfold parseCommand
  rw [getBytes, encode_snoc_nul, Utf16.decode_encode, utf8_snoc_nul]

theorem plain_name (type : Commands) : Plain (utf8 type.name) := by
  cases type <;> decide

theorem take_name (type : Commands) : (utf8 type.name).take (maxSize - 1) = utf8 type.name := by
  cases type <;> decide

/-! ## What the server reads -/

/-- The fields read from the arguments when `pending` is still in front of them. -/
def fieldsRead (pending : Bytes) : List Argument → List Bytes
  | [] => []
  | a :: rest => (pending ++ a.utf8).take (maxSize - 1) :: fieldsRead a.excess rest

/-- The bytes that are left after that. -/
def leftOver (pending : Bytes) : List Argument → Bytes
  | [] => pending
  | a :: rest => leftOver a.excess rest

/-- The first `n` bytes of `s` are there, and they are `pending` over and over. -/
def Repeats (n : Nat) (pending s : Bytes) : Prop :=
  n ≤ s.length ∧ ∀ i < n, s[i]? = pending[i % pending.length]?

/-- What is pending in front of an argument is nothing, or what a read of the argument repeats; in
front of the end it is nothing. -/
def Absorbed (pending : Bytes) : List Argument → Prop
  | [] => pending = []
  | a :: rest => (pending = [] ∨ Repeats (maxSize - 1) pending a.utf8) ∧ Absorbed a.excess rest

/-- Bytes in front of a string show in its first `n` bytes, unless these repeat them. -/
theorem take_append_eq_iff {n : Nat} {pending s : Bytes} :
    (pending ++ s).take n = s.take n ↔ pending = [] ∨ Repeats n pending s := by
  constructor
  · intro h
    by_cases hp : pending = []
    · exact Or.inl hp
    · have hpos := List.length_pos_of_ne_nil hp
      have hlen := congrArg List.length h
      simp only [List.length_take, List.length_append] at hlen
      refine Or.inr ⟨by omega, ?_⟩
      intro i hi
      induction i using Nat.strong_induction_on with
      | _ i ih =>
        have hshift : s[i]? = (pending ++ s)[i]? := by
          rw [← List.getElem?_take_of_lt hi, ← h, List.getElem?_take_of_lt hi]
        rw [hshift]
        by_cases hip : i < pending.length
        · rw [List.getElem?_append_left hip, Nat.mod_eq_of_lt hip]
        · have hge : pending.length ≤ i := by omega
          rw [List.getElem?_append_right hge, ih _ (by omega) (by omega), ← Nat.mod_eq_sub_mod hge]
  · rintro (rfl | ⟨-, hrep⟩)
    · rfl
    · apply List.ext_getElem?
      intro i
      by_cases hi : i < n
      · rw [List.getElem?_take_of_lt hi, List.getElem?_take_of_lt hi, hrep i hi]
        by_cases hip : i < pending.length
        · rw [List.getElem?_append_left hip, Nat.mod_eq_of_lt hip]
        · have hge : pending.length ≤ i := by omega
          rw [List.getElem?_append_right hge, hrep _ (by omega), ← Nat.mod_eq_sub_mod hge]
      · rw [List.getElem?_take_eq_none (by omega), List.getElem?_take_eq_none (by omega)]

theorem take_append_sent (pending : Bytes) (a : Argument) :
    (pending ++ a.sent).take (maxSize - 1) = (pending ++ a.utf8).take (maxSize - 1) := by
  have hsent : ∀ k, k ≤ maxSize - 1 → a.sent.take k = a.utf8.take k := by
    intro k hk
    have hk' : k ≤ messageSize - 1 := hk
    have h := congrArg (List.take k) a.take_sent
    rwa [List.take_take, List.take_take, Nat.min_eq_left hk'] at h
  rw [List.take_append, List.take_append, hsent _ (Nat.sub_le _ _)]

theorem readLine_field (b : Buffer maxSize) {s : Bytes} (hs : Plain s)
    (rest : Bytes) :
    let r := readLine maxSize b (received (s ++ nul :: rest))
    r.buffer.text = s.take (maxSize - 1) ∧ r.rest = received rest := by
  have hbytes : received (s ++ nul :: rest) = received s ++ .byte nul :: received rest := by
    simp [received]
  rw [hbytes, readLine_terminated (by decide) (Nat.le_refl maxSize) hs (Or.inr rfl)]
  refine ⟨?_, rfl⟩
  rw [Buffer.text_fill (hs.take _).nul_notMem]

theorem readLines_arguments (buffers : Nat → Buffer maxSize) {pending : Bytes}
    (hp : Plain pending) (arguments : List Argument) :
    readLines buffers arguments.length
        (received (pending ++ arguments.flatMap fun a => parseString a.jstring)) =
      (fieldsRead pending arguments, received (leftOver pending arguments)) := by
  induction arguments generalizing pending with
  | nil => simp [readLines, fieldsRead, leftOver]
  | cons a rest ih =>
    have hplain : Plain (pending ++ a.sent) := fun b hb =>
      (List.mem_append.1 hb).elim (hp b) (a.plain_sent b)
    have hstream : pending ++ (a :: rest).flatMap (fun a => parseString a.jstring) =
        (pending ++ a.sent) ++
          nul :: (a.excess ++ rest.flatMap fun a => parseString a.jstring) := by
      rw [List.flatMap_cons, parseString_eq]
      simp
    obtain ⟨htext, hrest⟩ := readLine_field (buffers rest.length) hplain
      (a.excess ++ rest.flatMap fun a => parseString a.jstring)
    rw [hstream, List.length_cons]
    simp only [readLines, htext, hrest, ih a.plain_excess, take_append_sent, fieldsRead, leftOver]

/-- **What the server reads** from the bytes of an operation. -/
theorem readLines_wire (buffers : Nat → Buffer maxSize) (type : Commands)
    (arguments : List Argument) :
    readLines buffers (arguments.length + 1) (received (wire type arguments)) =
      (utf8 type.name :: fieldsRead [] arguments, received (leftOver [] arguments)) := by
  have hstream : wire type arguments = utf8 type.name ++
      nul :: arguments.flatMap fun a => parseString a.jstring := by
    unfold wire
    rw [parseCommand_eq]
    simp
  obtain ⟨htext, hrest⟩ := readLine_field (buffers arguments.length) (plain_name type)
    (arguments.flatMap fun a => parseString a.jstring)
  have hargs := readLines_arguments buffers Plain.nil arguments
  rw [List.nil_append] at hargs
  rw [hstream]
  simp only [readLines, htext, hrest, hargs, take_name]

theorem absorbed_iff (pending : Bytes) (arguments : List Argument) :
    fieldsRead pending arguments = arguments.map (fun a => a.utf8.take (maxSize - 1)) ∧
        leftOver pending arguments = [] ↔
      Absorbed pending arguments := by
  induction arguments generalizing pending with
  | nil => simp [fieldsRead, leftOver, Absorbed]
  | cons a rest ih =>
    simp only [fieldsRead, leftOver, Absorbed, List.map_cons, List.cons.injEq, and_assoc, ← ih,
      take_append_eq_iff]

/-- **The framing round trip** holds exactly when every argument has no excess, or one that the next
argument repeats, and the last has none. -/
theorem framing_round_trip_iff (buffers : Nat → Buffer maxSize) (type : Commands)
    (arguments : List Argument) :
    readLines buffers (arguments.length + 1) (received (wire type arguments)) =
        (utf8 type.name :: arguments.map (fun a => a.utf8.take (maxSize - 1)), []) ↔
      Absorbed [] arguments := by
  rw [readLines_wire, ← absorbed_iff]
  simp [received]

/-- 256 accented letters are 512 bytes, and 256 of these stay behind. -/
theorem accented_argument_stays_behind :
    ¬ ∀ (buffers : Nat → Buffer maxSize) (type : Commands) (arguments : List Argument),
      readLines buffers (arguments.length + 1) (received (wire type arguments)) =
        (utf8 type.name :: arguments.map (fun a => a.utf8.take (maxSize - 1)), []) := by
  intro h
  let a : Argument := ⟨List.replicate 256 'é', fun c hc => by
    rw [List.eq_of_mem_replicate hc]; decide⟩
  have hread := h (fun _ => .zeros _) .register [a]
  rw [readLines_wire, Prod.mk.injEq] at hread
  have hleft : (leftOver [] [a]).length = 256 := by decide +kernel
  have hnil : leftOver [] [a] = [] := by simpa [received] using hread.2
  rw [hnil] at hleft
  cases hleft

end DistributedSystems.Lab
