import DistributedSystems.Fs.Tree

/-!
# Reading and writing fields (`lib/lines.c`)

`readLine` reads one field, byte by byte, from a descriptor into a fixed buffer. The descriptor is
the list of the outcomes of its `read` calls; when the list is used up the other end has closed the
connection. Two facts describe it on a stream of bytes: a field that has its terminator
(`readLine_terminated`) and one that the end of the stream cuts short (`readLine_cut`).
-/

namespace DistributedSystems.Lab

open Fs

def newline : UInt8 := 10

/-- The outcome of one `read(fd, &ch, 1)`. -/
inductive ReadOutcome
  | byte (ch : UInt8)
  /-- -1 with `errno` set to `EINTR`. -/
  | eintr
  /-- -1 with any other `errno`. -/
  | error
  | eof
deriving DecidableEq, Repr

/-- A `char` array of `size` bytes. -/
structure Buffer (size : Nat) where
  bytes : Bytes
  length_bytes : bytes.length = size

namespace Buffer

variable {size : Nat}

theorem ext_bytes {b c : Buffer size} (h : b.bytes = c.bytes) : b = c := by
  cases b; cases c; cases h; rfl

instance : DecidableEq (Buffer size) := fun b c =>
  decidable_of_iff (b.bytes = c.bytes) ⟨ext_bytes, fun h => h ▸ rfl⟩

/-- `buf[i] = ch`. -/
def store (b : Buffer size) (i : Nat) (ch : UInt8) : Buffer size :=
  ⟨b.bytes.set i ch, by rw [List.length_set, b.length_bytes]⟩

/-- The C string in the array: the bytes before the first NUL. -/
def text (b : Buffer size) : Bytes := b.bytes.takeWhile (· ≠ nul)

def zeros (size : Nat) : Buffer size := ⟨List.replicate size nul, List.length_replicate⟩

end Buffer

/-- What a call of `readLine` leaves: its result, the buffer and the outcomes not yet read. -/
structure LineRead (size : Nat) where
  numBytes : Int
  buffer : Buffer size
  rest : List ReadOutcome
deriving DecidableEq

/-- The loop of `readLine`, with `totRead` bytes stored so far: `buf` is the element at that
index. -/
def readLineLoop {size : Nat} (n : Nat) :
    List ReadOutcome → Buffer size → Nat → LineRead size
  | [], buffer, totRead =>
    if totRead = 0 then ⟨0, buffer, []⟩ else ⟨totRead, buffer.store totRead nul, []⟩
  | .eintr :: rest, buffer, totRead => readLineLoop n rest buffer totRead
  | .error :: rest, buffer, _ => ⟨-1, buffer, rest⟩
  | .eof :: rest, buffer, totRead =>
    -- with nothing read the function returns before the terminating NUL is stored
    if totRead = 0 then ⟨0, buffer, rest⟩ else ⟨totRead, buffer.store totRead nul, rest⟩
  | .byte ch :: rest, buffer, totRead =>
    if ch = newline ∨ ch = nul then ⟨totRead, buffer.store totRead nul, rest⟩
    else if totRead < n - 1 then readLineLoop n rest (buffer.store totRead ch) (totRead + 1)
    else readLineLoop n rest buffer totRead

/-- `readLine(fd, buffer, n)` with a buffer that is not NULL. -/
def readLine {size : Nat} (n : Nat) (buffer : Buffer size) (input : List ReadOutcome) :
    LineRead size :=
  if n = 0 then ⟨-1, buffer, input⟩ else readLineLoop n input buffer 0

/-- The bytes that `writeLine` puts on the descriptor when its two writes go through. -/
def writeLine (data : Bytes) : Bytes := data ++ [newline]

/-- A byte that ends a field. -/
def IsTerminator (ch : UInt8) : Prop := ch = newline ∨ ch = nul

instance : DecidablePred IsTerminator := fun ch =>
  inferInstanceAs (Decidable (ch = newline ∨ ch = nul))

/-- A string without the two terminators: what can stand in one field. -/
def Plain (s : Bytes) : Prop := ∀ ch ∈ s, ¬ IsTerminator ch

instance : DecidablePred Plain := List.decidableBAll fun ch => ¬ IsTerminator ch

theorem Plain.nil : Plain [] := fun _ h => absurd h List.not_mem_nil

theorem Plain.nul_notMem {s : Bytes} (h : Plain s) : nul ∉ s := fun hm => h nul hm (Or.inr rfl)

theorem Plain.take {s : Bytes} (h : Plain s) (k : Nat) : Plain (s.take k) :=
  fun ch hc => h ch (List.mem_of_mem_take hc)

/-! ## Filling the buffer -/

namespace Buffer

variable {size : Nat}

/-- The array with `s` and a terminating NUL at its start. -/
def fill (b : Buffer size) (s : Bytes) (h : s.length < size) : Buffer size :=
  ⟨overwrite (s ++ [nul]) b.bytes, by
    have hle : (s ++ [nul]).length ≤ b.bytes.length := by
      rw [List.length_append, List.length_singleton, b.length_bytes]; exact h
    rw [length_overwrite hle, b.length_bytes]⟩

theorem text_fill {b : Buffer size} {s : Bytes} {h : s.length < size} (hs : nul ∉ s) :
    (b.fill s h).text = s := by
  have hne : ∀ c ∈ s, decide (c ≠ nul) = true := by
    intro c hc
    simpa using fun he : c = nul => hs (he ▸ hc)
  simp only [text, fill, overwrite, List.append_assoc, List.singleton_append]
  rw [List.takeWhile_append_of_pos hne]
  simp

theorem exists_text {s : Bytes} (hs : nul ∉ s) (h : s.length < size) :
    ∃ b : Buffer size, b.text = s :=
  ⟨(zeros size).fill s h, text_fill hs⟩

theorem text_zeros (size : Nat) : (zeros size).text = [] := by
  cases size <;> simp [text, zeros, List.replicate_succ]

end Buffer

/-! ## A field in a stream of bytes -/

/-- The outcomes of reading the bytes `s`. -/
def received (s : Bytes) : List ReadOutcome := s.map .byte

@[simp] theorem received_nil : received [] = [] := rfl

@[simp] theorem received_cons (ch : UInt8) (s : Bytes) :
    received (ch :: s) = .byte ch :: received s := rfl

section Loop

variable {size n : Nat}

/-- The loop over bytes that end no field: those that fit are stored in order, all are consumed.
The array is split at the element the loop has reached. -/
theorem readLineLoop_plain (hn : n ≤ size) {s : Bytes} (hs : Plain s) (rest : List ReadOutcome)
    {acc tail : Bytes} {b : Buffer size} (hb : b.bytes = acc ++ tail)
    (hacc : acc.length ≤ n - 1) :
    ∃ b' : Buffer size, b'.bytes = acc ++ overwrite (s.take (n - 1 - acc.length)) tail ∧
      readLineLoop n (received s ++ rest) b acc.length =
        readLineLoop n rest b' (acc.length + min s.length (n - 1 - acc.length)) := by
  induction s generalizing acc tail b with
  | nil => exact ⟨b, by simpa using hb, by simp⟩
  | cons ch s ih =>
    have hch : ¬ (ch = newline ∨ ch = nul) := hs ch List.mem_cons_self
    have hs' : Plain s := by
      intro c hc
      exact hs c (List.mem_cons_of_mem _ hc)
    simp only [received_cons, List.cons_append, readLineLoop, if_neg hch]
    by_cases hroom : acc.length < n - 1
    · rw [if_pos hroom]
      have hlen : acc.length + tail.length = size := by
        rw [← List.length_append, ← hb, b.length_bytes]
      obtain ⟨c, tail, rfl⟩ : ∃ c tail', tail = c :: tail' :=
        List.exists_cons_of_ne_nil (List.ne_nil_of_length_pos (by omega))
      have hstore : (b.store acc.length ch).bytes = (acc ++ [ch]) ++ tail := by
        simp [Buffer.store, hb]
      have hacc' : (acc ++ [ch]).length ≤ n - 1 := by
        rw [List.length_append, List.length_singleton]
        omega
      obtain ⟨b', hb', hloop⟩ := ih hs' hstore hacc'
      obtain ⟨k, hk⟩ : ∃ k, n - 1 - acc.length = k + 1 := ⟨n - 1 - acc.length - 1, by omega⟩
      have hk' : n - 1 - (acc.length + 1) = k := by omega
      simp only [List.length_append, List.length_singleton, hk'] at hb' hloop
      refine ⟨b', by simpa [hk] using hb', ?_⟩
      rw [hloop, hk, List.length_cons]
      congr 1
      omega
    · rw [if_neg hroom]
      obtain ⟨b', hb', hloop⟩ := ih hs' hb hacc
      have hk : n - 1 - acc.length = 0 := by omega
      simp only [hk, List.take_zero, Nat.min_zero, Nat.add_zero] at hb' hloop ⊢
      exact ⟨b', hb', hloop⟩

theorem length_take_lt (hn0 : 0 < n) (hn : n ≤ size) (s : Bytes) :
    (s.take (n - 1)).length < size := by
  rw [List.length_take]; omega

/-- The NUL that ends the stored bytes. -/
theorem store_nul_eq_fill (hn0 : 0 < n) (hn : n ≤ size) {s : Bytes} {b b' : Buffer size}
    (hb' : b'.bytes = overwrite (s.take (n - 1)) b.bytes) :
    b'.store (min s.length (n - 1)) nul = b.fill (s.take (n - 1)) (length_take_lt hn0 hn s) := by
  apply Buffer.ext_bytes
  have hlt : (s.take (n - 1)).length < b.bytes.length := by
    rw [b.length_bytes]; exact length_take_lt hn0 hn s
  have hset := set_overwrite hlt nul
  rw [List.length_take, Nat.min_comm, ← hb'] at hset
  exact hset

/-- **A field with its terminator**: `readLine` stores the first `n - 1` bytes of the field and a
NUL, and consumes exactly the field and the terminator. -/
theorem readLine_terminated (hn0 : 0 < n) (hn : n ≤ size) {s : Bytes} (hs : Plain s) {ch : UInt8}
    (hch : IsTerminator ch) (b : Buffer size) (rest : List ReadOutcome) :
    readLine n b (received s ++ .byte ch :: rest) =
      ⟨(min s.length (n - 1) : Nat), b.fill (s.take (n - 1)) (length_take_lt hn0 hn s), rest⟩ := by
  obtain ⟨b', hb', hloop⟩ := readLineLoop_plain hn hs (.byte ch :: rest)
    (List.nil_append b.bytes).symm (Nat.zero_le _)
  simp only [List.nil_append, List.length_nil, Nat.sub_zero, Nat.zero_add] at hb' hloop
  have hnt : ch = newline ∨ ch = nul := hch
  unfold readLine
  rw [if_neg (by omega), hloop]
  simp only [readLineLoop, if_pos hnt]
  rw [store_nul_eq_fill hn0 hn hb']

/-- **A field that the end of the stream cuts short** reads as a field that ends there, except that
nothing at all leaves the buffer as it was. -/
theorem readLine_cut (hn0 : 0 < n) (hn : n ≤ size) {s : Bytes} (hs : Plain s) (b : Buffer size) :
    readLine n b (received s) =
      if min s.length (n - 1) = 0 then ⟨0, b, []⟩
      else
        ⟨(min s.length (n - 1) : Nat), b.fill (s.take (n - 1)) (length_take_lt hn0 hn s), []⟩ := by
  obtain ⟨b', hb', hloop⟩ := readLineLoop_plain hn hs []
    (List.nil_append b.bytes).symm (Nat.zero_le _)
  simp only [List.nil_append, List.length_nil, Nat.sub_zero, Nat.zero_add, List.append_nil]
    at hb' hloop
  unfold readLine
  rw [if_neg (by omega), hloop]
  unfold readLineLoop
  split
  · rename_i h0
    have htake : s.take (n - 1) = [] := by
      rw [← List.length_eq_zero_iff, List.length_take, Nat.min_comm]; exact h0
    rw [htake, overwrite_nil] at hb'
    rw [Buffer.ext_bytes hb']
  · rw [store_nul_eq_fill hn0 hn hb']

end Loop

end DistributedSystems.Lab
