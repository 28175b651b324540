import DistributedSystems.Fs.Tree

/-!
# Receiving a message (`recieve_msg` of `lib/lines.c`, `recv_msg` of `Exercise2/read_line.c`)

The loop reads until nothing is left or a `read` fails. A `read` that returns 0, because the peer
has closed the connection, leaves as much as before, and the next one returns 0 again. So the
function ends with the truth about the message exactly when the peer does not close before all of it
has been delivered (`endsTruthfully_iff`).
-/

namespace DistributedSystems.Lab

open Fs

/-- The outcome of one `read`. The bytes are those that have arrived: at least one, and the call
takes as many of them as it asks for. -/
inductive ReadResult
  | bytes (ch : UInt8) (more : Bytes)
  | error
  | closed
deriving DecidableEq, Repr

/-- What the reads of a call come to. A connection that is closed stays so. -/
structure Peer where
  reads : Nat → ReadResult
  stays : ∀ i, reads i = .closed → reads (i + 1) = .closed

namespace ReceiveMessage

/-- Why a call has not returned. -/
inductive Unfinished
  /-- More rounds of the loop are needed. -/
  | rounds
  /-- A `read` writes outside of the array. -/
  | outside
deriving DecidableEq, Repr

/-- The array with bytes stored from an element on. -/
def storeAt (array : Bytes) (offset : Nat) (data : Bytes) : Bytes :=
  array.take offset ++ overwrite data (array.drop offset)

/-- `r = read(socket, mensaje, l)`, where `mensaje` points to an element of the array. -/
def read (result : ReadResult) (array : Bytes) (mensaje l : Int) :
    Except Unfinished (Int × Bytes) :=
  match result with
  | .bytes ch more =>
    let data := (ch :: more).take l.toNat
    if 0 ≤ mensaje ∧ mensaje + data.length ≤ array.length then
      .ok (data.length, storeAt array mensaje.toNat data)
    else .error .outside
  | .error => .ok (-1, array)
  | .closed => .ok (0, array)

/-- The loop, at its `i`-th `read`. -/
def loop (peer : Peer) : Nat → Nat → Bytes → Int → Int → Except Unfinished (Int × Bytes)
  | 0, _, _, _, _ => .error .rounds
  | rounds + 1, i, array, mensaje, l =>
    match read (peer.reads i) array mensaje l with
    | .error unfinished => .error unfinished
    | .ok (r, array) =>
      let l := l - r
      let mensaje := mensaje + r
      if 0 < l ∧ 0 ≤ r then loop peer rounds (i + 1) array mensaje l
      else .ok (if r < 0 then -1 else 0, array)

/-- `recieve_msg`: its result and the array. -/
def recieveMsg (rounds : Nat) (peer : Peer) (array : Bytes) (longitud : Nat) :
    Except Unfinished (Int × Bytes) :=
  loop peer rounds 0 array 0 longitud

/-- What the peer has delivered of a message of this length in so many reads. -/
inductive Delivers (peer : Peer) (longitud : Nat) : Nat → Bytes → Prop
  | nil : Delivers peer longitud 0 []
  | bytes {i : Nat} {got : Bytes} {ch : UInt8} {more : Bytes} (hgot : Delivers peer longitud i got)
      (hleft : got.length < longitud) (hread : peer.reads i = .bytes ch more) :
      Delivers peer longitud (i + 1) (got ++ (ch :: more).take (longitud - got.length))

/-- The call returns, the array holds what has been delivered and is else as it was, and the result
says whether that is all of the message. -/
def EndsTruthfully (peer : Peer) (array : Bytes) (longitud : Nat) : Prop :=
  ∃ i got result array', (∃ n, ∀ rounds, n ≤ rounds →
      recieveMsg rounds peer array longitud = .ok (result, array')) ∧
    Delivers peer longitud i got ∧ got.length ≤ longitud ∧ array' = overwrite got array ∧
      result = if got.length = longitud then 0 else -1

/-- The peer closes the connection before all of the message has been delivered. -/
def ClosesEarly (peer : Peer) (longitud : Nat) : Prop :=
  ∃ i got, Delivers peer longitud i got ∧ got.length < longitud ∧ peer.reads i = .closed

section Loop

variable {peer : Peer} {array got : Bytes} {longitud i rounds : Nat}

theorem storeAt_overwrite (data : Bytes) :
    storeAt (overwrite got array) got.length data = overwrite (got ++ data) array := by
  unfold storeAt overwrite
  rw [List.take_left, List.drop_left, List.drop_drop, List.append_assoc, List.length_append]

theorem Delivers.length_le (h : Delivers peer longitud i got) : got.length ≤ longitud := by
  induction h with
  | nil => exact Nat.zero_le _
  | bytes _ hleft _ ih =>
    rw [List.length_append, List.length_take]
    omega

/-- A round in which bytes arrive. -/
theorem loop_bytes {ch : UInt8} {more : Bytes} (harray : longitud ≤ array.length)
    (hleft : got.length < longitud) (hread : peer.reads i = .bytes ch more) :
    loop peer (rounds + 1) i (overwrite got array) got.length (longitud - got.length : Nat) =
      let got' := got ++ (ch :: more).take (longitud - got.length)
      if got'.length < longitud then
        loop peer rounds (i + 1) (overwrite got' array) got'.length (longitud - got'.length : Nat)
      else .ok (0, overwrite got' array) := by
  have hdata : ((ch :: more).take (longitud - got.length)).length ≤ longitud - got.length :=
    List.length_take_le _ _
  have hlen : (overwrite got array).length = array.length := length_overwrite (by omega)
  rw [loop]
  unfold read
  rw [hread]
  dsimp only
  have hin : (0 : Int) ≤ got.length ∧
      (got.length : Int) + ((ch :: more).take (longitud - got.length)).length ≤
        (overwrite got array).length := by
    rw [hlen]
    omega
  rw [Int.toNat_natCast, Int.toNat_natCast, if_pos hin]
  dsimp only
  rw [storeAt_overwrite, List.length_append]
  generalize ((ch :: more).take (longitud - got.length)).length = r at hdata
  have hl : ((longitud - got.length : Nat) : Int) - r = (longitud - (got.length + r) : Nat) := by
    omega
  rw [hl, ← Int.natCast_add]
  by_cases hmore : got.length + r < longitud
  · rw [if_pos hmore, if_pos ⟨by omega, Int.natCast_nonneg _⟩]
  · rw [if_neg hmore, if_neg (fun h => by omega), if_neg (by omega)]

/-- The loop gets to a round by the reads before it. -/
theorem loop_delivered (harray : longitud ≤ array.length) (h : Delivers peer longitud i got)
    (hleft : got.length < longitud) :
    recieveMsg (i + rounds) peer array longitud =
      loop peer rounds i (overwrite got array) got.length (longitud - got.length : Nat) := by
  induction h generalizing rounds with
  | nil => rw [Nat.zero_add]; rfl
  | @bytes i got ch more h hleft' hread ih =>
    rw [Nat.add_assoc, Nat.add_comm 1, ih hleft', loop_bytes harray hleft' hread]
    dsimp only
    rw [if_pos hleft]

/-- A `read` that fails ends the loop. -/
theorem loop_error (hread : peer.reads i = .error) (mensaje l : Int) :
    loop peer (rounds + 1) i array mensaje l = .ok (-1, array) := by
  rw [loop]
  unfold read
  rw [hread]
  dsimp only
  rw [if_neg (fun h => absurd h.2 (by decide)), if_pos (by decide)]

/-- A connection that is closed keeps the loop going. -/
theorem loop_closed (hread : peer.reads i = .closed) (mensaje : Int) {l : Int} (hl : 0 < l) :
    loop peer rounds i array mensaje l = .error .rounds := by
  induction rounds generalizing i mensaje l with
  | zero => rfl
  | succ rounds ih =>
    rw [loop]
    unfold read
    rw [hread]
    dsimp only
    rw [if_pos ⟨by omega, Int.le_refl 0⟩]
    exact ih (peer.stays i hread) _ (by omega)

/-- Either all of the message is delivered, or a `read` fails or gives nothing before. -/
theorem exists_end (peer : Peer) (h : Delivers peer longitud i got) :
    ∃ i got, Delivers peer longitud i got ∧
      (got.length = longitud ∨
        got.length < longitud ∧ (peer.reads i = .error ∨ peer.reads i = .closed)) := by
  induction hk : longitud - got.length using Nat.strong_induction_on generalizing i got with
  | _ k ih =>
    have hle := h.length_le
    by_cases hleft : got.length < longitud
    · cases hread : peer.reads i with
      | error => exact ⟨i, got, h, .inr ⟨hleft, .inl hread⟩⟩
      | closed => exact ⟨i, got, h, .inr ⟨hleft, .inr hread⟩⟩
      | bytes ch more =>
        refine ih _ ?_ (h.bytes hleft hread) rfl
        rw [List.length_append, List.length_take, List.length_cons]
        omega
    · exact ⟨i, got, h, .inl (by omega)⟩

/-- All of the message has been delivered. -/
theorem recieveMsg_all (harray : longitud ≤ array.length) (hlongitud : 1 ≤ longitud)
    (h : Delivers peer longitud i got) (hall : got.length = longitud) :
    recieveMsg (i + rounds) peer array longitud = .ok (0, overwrite got array) := by
  cases h with
  | nil =>
    rw [List.length_nil] at hall
    omega
  | @bytes i got ch more h hleft hread =>
    rw [Nat.add_assoc, Nat.add_comm 1, loop_delivered harray h hleft,
      loop_bytes harray hleft hread]
    dsimp only
    rw [if_neg (by omega)]

/-- A `read` fails before. -/
theorem recieveMsg_error (harray : longitud ≤ array.length) (h : Delivers peer longitud i got)
    (hleft : got.length < longitud) (hread : peer.reads i = .error) :
    recieveMsg (i + (rounds + 1)) peer array longitud = .ok (-1, overwrite got array) := by
  rw [loop_delivered harray h hleft, loop_error hread]

/-- The connection is closed before: the call never returns. -/
theorem recieveMsg_closed (harray : longitud ≤ array.length) (h : Delivers peer longitud i got)
    (hleft : got.length < longitud) (hread : peer.reads i = .closed) :
    recieveMsg (i + rounds) peer array longitud = .error .rounds := by
  rw [loop_delivered harray h hleft, loop_closed hread _ (by omega)]

/-- **A call ends with the truth about the message** exactly when the peer does not close before all
of it has been delivered. -/
theorem endsTruthfully_iff (harray : longitud ≤ array.length) (hlongitud : 1 ≤ longitud)
    (peer : Peer) :
    EndsTruthfully peer array longitud ↔ ¬ ClosesEarly peer longitud := by
  constructor
  · rintro ⟨-, -, result, array', ⟨n, hn⟩, -⟩ ⟨i, got, h, hleft, hread⟩
    have hnever : recieveMsg (i + n) peer array longitud = .error .rounds :=
      recieveMsg_closed harray h hleft hread
    rw [hn (i + n) (Nat.le_add_left n i)] at hnever
    cases hnever
  · intro hopen
    obtain ⟨i, got, h, hend⟩ := exists_end (i := 0) peer .nil
    rcases hend with hall | ⟨hleft, herror | hclosed⟩
    · refine ⟨i, got, 0, overwrite got array, ⟨i, fun rounds hrounds => ?_⟩, h, h.length_le, rfl,
        (if_pos hall).symm⟩
      obtain ⟨k, rfl⟩ := Nat.exists_eq_add_of_le hrounds
      exact recieveMsg_all harray hlongitud h hall
    · refine ⟨i, got, -1, overwrite got array, ⟨i + 1, fun rounds hrounds => ?_⟩, h, h.length_le,
        rfl, (if_neg (Nat.ne_of_lt hleft)).symm⟩
      obtain ⟨k, rfl⟩ := Nat.exists_eq_add_of_le hrounds
      rw [Nat.add_assoc, Nat.add_comm 1]
      exact recieveMsg_error harray h hleft herror
    · exact absurd ⟨i, got, h, hleft, hclosed⟩ hopen

end Loop

/-- One byte comes with each `read`. -/
def sending : Peer := ⟨fun _ => .bytes 97 [], nofun⟩

/-- The connection is closed after the first byte. -/
def closing : Peer where
  reads
    | 0 => .bytes 97 []
    | _ + 1 => .closed
  stays i h := by
    cases i with
    | zero => cases h
    | succ i => rfl

theorem sending_endsTruthfully : EndsTruthfully sending [0, 0, 0] 2 := by
  refine (endsTruthfully_iff (by decide) (by decide) sending).2 ?_
  rintro ⟨i, got, -, -, hread⟩
  cases hread

/-- One of two bytes arrives. -/
theorem closing_never_returns :
    ¬ ∀ (peer : Peer) (array : Bytes) (longitud : Nat), longitud ≤ array.length → 1 ≤ longitud →
      EndsTruthfully peer array longitud := by
  intro h
  obtain ⟨-, -, result, array', ⟨n, hn⟩, -⟩ := h closing [0, 0] 2 (by decide) (by decide)
  have hnone : Delivers closing 2 0 [] := .nil
  have hone : Delivers closing 2 1 [97] := hnone.bytes (by decide) rfl
  have hnever : recieveMsg (1 + n) closing [0, 0] 2 = .error .rounds :=
    recieveMsg_closed (by decide) hone (by decide) rfl
  rw [hn (1 + n) (Nat.le_add_left n 1)] at hnever
  cases hnever

end ReceiveMessage

end DistributedSystems.Lab
