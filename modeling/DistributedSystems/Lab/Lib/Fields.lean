import DistributedSystems.Lab.Lib.Lines

/-!
# Fields

What a handler gets from one call of `readLine`, and what a stream of fields looks like to a reader.
`Arrived` is any byte stream, cut into the fields that have their terminator and a last part that
has none; `receive_arrived` reads the next field of it, whichever of the two that is.
-/

namespace DistributedSystems.Lab

open Fs

/-- A field as a handler sees it: the C string in its buffer and the result of `readLine`. -/
structure Line where
  text : Bytes
  length : Nat
deriving DecidableEq, Repr

/-- A field that arrived whole. -/
def Line.of (s : Bytes) : Line := ⟨s, s.length⟩

/-- A field that `readLine` with a buffer of `size` bytes can deliver whole. -/
structure Line.Delivered (size : Nat) (line : Line) : Prop where
  length_eq : line.length = line.text.length
  plain : Plain line.text
  fits : line.text.length < size

instance (size : Nat) (line : Line) : Decidable (line.Delivered size) :=
  decidable_of_iff (line.length = line.text.length ∧ Plain line.text ∧ line.text.length < size)
    ⟨fun ⟨h1, h2, h3⟩ => ⟨h1, h2, h3⟩, fun ⟨h1, h2, h3⟩ => ⟨h1, h2, h3⟩⟩

/-- Reads a field into a buffer. `none` is the -1 of `readLine`. -/
def receive {size : Nat} (buffer : Buffer size) (input : List ReadOutcome) :
    Option (Line × List ReadOutcome) :=
  let r := readLine size buffer input
  if r.numBytes = -1 then none else some (⟨r.buffer.text, r.numBytes.toNat⟩, r.rest)

/-- A string on the wire with the byte that ends it. -/
structure Field where
  text : Bytes
  terminator : UInt8
  plain : Plain text
  ends : IsTerminator terminator

def Field.bytes (x : Field) : Bytes := x.text ++ [x.terminator]

/-- The bytes of some fields one after the other. -/
def stream (fields : List Field) : Bytes := fields.flatMap Field.bytes

@[simp] theorem stream_nil : stream [] = [] := rfl

@[simp] theorem stream_cons (x : Field) (fields : List Field) :
    stream (x :: fields) = x.text ++ x.terminator :: stream fields := by
  simp [stream, Field.bytes]

/-! ## Streams that end anywhere -/

/-- The bytes that have come before the end of a stream: whole fields and the part of one more. -/
structure Arrived where
  whole : List Field
  part : Bytes
  plain : Plain part

namespace Arrived

def bytes (a : Arrived) : Bytes := stream a.whole ++ a.part

theorem plain_cons {ch : UInt8} {s : Bytes} (hch : ¬ IsTerminator ch) (hs : Plain s) :
    Plain (ch :: s) := by
  intro c hc
  rcases List.mem_cons.1 hc with rfl | hc
  · exact hch
  · exact hs c hc

/-- One more byte in front. -/
def cons (ch : UInt8) (a : Arrived) : Arrived :=
  if h : IsTerminator ch then ⟨⟨[], ch, by simp [Plain], h⟩ :: a.whole, a.part, a.plain⟩
  else
    match a.whole with
    | [] => ⟨[], ch :: a.part, plain_cons h a.plain⟩
    | x :: whole => ⟨⟨ch :: x.text, x.terminator, plain_cons h x.plain, x.ends⟩ :: whole, a.part,
        a.plain⟩

/-- Any bytes as a stream of fields. -/
def of : Bytes → Arrived
  | [] => ⟨[], [], by simp [Plain]⟩
  | ch :: s => (of s).cons ch

theorem bytes_cons (ch : UInt8) (a : Arrived) : (a.cons ch).bytes = ch :: a.bytes := by
  obtain ⟨whole, part, hp⟩ := a
  simp only [cons, bytes]
  split
  · simp
  · cases whole <;> simp

theorem bytes_of (s : Bytes) : (of s).bytes = s := by
  induction s with
  | nil => rfl
  | cons ch s ih => rw [of, bytes_cons, ih]

/-- A field in front of a stream. -/
theorem of_field {t : Bytes} (ht : Plain t) {ch : UInt8} (hch : IsTerminator ch) (s : Bytes) :
    of (t ++ ch :: s) = ⟨⟨t, ch, ht, hch⟩ :: (of s).whole, (of s).part, (of s).plain⟩ := by
  induction t with
  | nil =>
    rw [List.nil_append, of, cons, dif_pos hch]
  | cons c t ih =>
    have hc : ¬ IsTerminator c := ht c List.mem_cons_self
    have ht' : Plain t := fun b hb => ht b (List.mem_cons_of_mem _ hb)
    rw [List.cons_append, of, ih ht', cons, dif_neg hc]

/-- The next field that a buffer receives. A field of which nothing has come leaves the buffer as it
was. -/
def next {size : Nat} (b : Buffer size) (a : Arrived) : Line :=
  match a.whole with
  | x :: _ => Line.of (x.text.take (size - 1))
  | [] => if a.part = [] then ⟨b.text, 0⟩ else Line.of (a.part.take (size - 1))

/-- The stream after its next field. -/
def rest (a : Arrived) : Arrived :=
  match a.whole with
  | _ :: whole => ⟨whole, a.part, a.plain⟩
  | [] => ⟨[], [], by simp [Plain]⟩

end Arrived

/-! ### Fields that come -/

namespace Arrived

/-- Something of the next field has come, if only its terminator. -/
def Comes (a : Arrived) : Prop := a.whole ≠ [] ∨ a.part ≠ []

variable {a : Arrived} {size : Nat}

/-- A field that comes does not depend on its buffer. -/
theorem next_of_comes (h : a.Comes) (b b' : Buffer size) : a.next b = a.next b' := by
  obtain ⟨whole, part, hp⟩ := a
  cases whole with
  | nil =>
    have hpart : part ≠ [] := h.resolve_left fun hnil => hnil rfl
    simp [next, hpart]
  | cons x whole => rfl

theorem next_of_not_comes (h : ¬ a.Comes) (b : Buffer size) : a.next b = ⟨b.text, 0⟩ := by
  obtain ⟨whole, part, hp⟩ := a
  obtain ⟨rfl, rfl⟩ : whole = [] ∧ part = [] := by simpa [Comes] using h
  rfl

theorem not_comes_rest (h : ¬ a.Comes) : ¬ a.rest.Comes := by
  obtain ⟨whole, part, hp⟩ := a
  obtain ⟨rfl, rfl⟩ : whole = [] ∧ part = [] := by simpa [Comes] using h
  simp [Comes, rest]

end Arrived

/-- The first field of some bytes. -/
def fieldOf (s : Bytes) : Bytes := s.takeWhile fun ch => ¬ IsTerminator ch

theorem plain_fieldOf (s : Bytes) : Plain (fieldOf s) := by
  intro ch hch
  simpa using List.all_eq_true.1 List.all_takeWhile ch hch

theorem exists_fieldOf {s : Bytes} (h : nul ∈ s) :
    ∃ ch rest, IsTerminator ch ∧ s = fieldOf s ++ ch :: rest := by
  induction s with
  | nil => cases h
  | cons c s ih =>
    by_cases hc : IsTerminator c
    · refine ⟨c, s, hc, ?_⟩
      simp [fieldOf, hc]
    · have hne : nul ≠ c := by
        rintro rfl
        exact hc (Or.inr rfl)
      obtain ⟨ch, rest, hch, heq⟩ := ih ((List.mem_cons.1 h).resolve_left hne)
      refine ⟨ch, rest, hch, ?_⟩
      have hcons : fieldOf (c :: s) = c :: fieldOf s := by simp [fieldOf, hc]
      rw [hcons, List.cons_append, ← heq]

theorem text_fill_take {size n : Nat} (b : Buffer size) {s : Bytes} (hs : Plain s)
    (h : (s.take (n - 1)).length < size) : (b.fill (s.take (n - 1)) h).text = s.take (n - 1) :=
  Buffer.text_fill (hs.take _).nul_notMem

theorem natCast_ne_neg_one (n : Nat) : ¬ (n : Int) = -1 := by omega

/-- **The next field of a stream**, whole or cut short. -/
theorem receive_arrived {size : Nat} (hsize : 1 < size) (b : Buffer size) (a : Arrived) :
    receive b (received a.bytes) = some (a.next b, received a.rest.bytes) := by
  obtain ⟨whole, part, hp⟩ := a
  have hlen : ∀ s : Bytes, (s.take (size - 1)).length = min s.length (size - 1) := by
    intro s
    rw [List.length_take, Nat.min_comm]
  cases whole with
  | nil =>
    have hread := readLine_cut (by omega) (Nat.le_refl size) hp b
    simp only [receive, Arrived.bytes, stream_nil, List.nil_append, hread]
    by_cases hnil : part = []
    · subst hnil
      simp [Arrived.next, Arrived.rest]
    · have hpos := List.length_pos_of_ne_nil hnil
      have h0 : ¬ min part.length (size - 1) = 0 := by omega
      rw [if_neg h0, if_neg (natCast_ne_neg_one _), text_fill_take b hp, Int.toNat_natCast]
      simp [Arrived.next, Arrived.rest, hnil, Line.of, hlen]
  | cons x whole =>
    have hread := readLine_terminated (by omega) (Nat.le_refl size) x.plain x.ends b
      (received (stream whole ++ part))
    have hbytes : received (stream (x :: whole) ++ part) =
        received x.text ++ .byte x.terminator :: received (stream whole ++ part) := by
      simp [received]
    simp only [receive, Arrived.bytes, hbytes, hread]
    rw [if_neg (natCast_ne_neg_one _), text_fill_take b x.plain, Int.toNat_natCast]
    simp [Arrived.next, Arrived.rest, Line.of, hlen]

end DistributedSystems.Lab
