import DistributedSystems.Lab.Lib.Lines

/-!
# One field (`readLine` of `lib/lines.c`, `Exercise2/read_line.c`)

What one call of `readLine` makes of any outcomes of its reads. Interruptions change nothing
(`readLine_filter`). The field ends at the first NUL, newline, end of the stream or error, and the
call stores what of it fits and a NUL. The NUL is missing when the stream ends and nothing has been
stored, so a field is read as it should exactly when that does not happen, or the buffer begins with
a NUL (`readsField_iff`).
-/

namespace DistributedSystems.Lab

open Fs

/-- An outcome after which `readLine` reads no more. -/
def ReadOutcome.Ends : ReadOutcome → Prop
  | .byte ch => IsTerminator ch
  | .eintr => False
  | .error => True
  | .eof => True

instance : DecidablePred ReadOutcome.Ends := fun
  | .byte ch => inferInstanceAs (Decidable (IsTerminator ch))
  | .eintr => inferInstanceAs (Decidable False)
  | .error => inferInstanceAs (Decidable True)
  | .eof => inferInstanceAs (Decidable True)

def ReadOutcome.byte? : ReadOutcome → Option UInt8
  | .byte ch => some ch
  | _ => none

/-- The bytes of a field: those before it ends. -/
def fieldRead (input : List ReadOutcome) : Bytes :=
  (input.takeWhile (¬ ·.Ends)).filterMap ReadOutcome.byte?

/-- What ends a field. -/
def endingOf (input : List ReadOutcome) : Option ReadOutcome := input.find? (·.Ends)

/-- What comes after the ending. -/
def afterField (input : List ReadOutcome) : List ReadOutcome :=
  (input.dropWhile (¬ ·.Ends)).tail

/-- The outcomes without the interruptions. -/
def uninterrupted (input : List ReadOutcome) : List ReadOutcome := input.filter (· ≠ .eintr)

/-- A call of `readLine` reads exactly one field. -/
structure ReadsField {size : Nat} (n : Nat) (b : Buffer size) (input : List ReadOutcome) :
    Prop where
  error_iff : (readLine n b input).numBytes = -1 ↔ endingOf input = some .error
  stored : endingOf input ≠ some .error →
    (readLine n b input).numBytes = (min (fieldRead input).length (n - 1) : Nat) ∧
      (readLine n b input).buffer.bytes =
        overwrite ((fieldRead input).take (n - 1) ++ [nul]) b.bytes ∧
      (readLine n b input).rest = afterField input
  interruptions : ∀ input', uninterrupted input' = uninterrupted input →
    (readLine n b input').numBytes = (readLine n b input).numBytes ∧
      (readLine n b input').buffer = (readLine n b input).buffer

section Loop

variable {size n : Nat}

/-! ## Interruptions -/

/-- The loop without the interruptions. -/
theorem readLineLoop_filter (input : List ReadOutcome) (b : Buffer size) (totRead : Nat) :
    readLineLoop n (uninterrupted input) b totRead =
      { readLineLoop n input b totRead with
        rest := uninterrupted (readLineLoop n input b totRead).rest } := by
  induction input generalizing b totRead with
  | nil =>
    unfold uninterrupted
    rw [List.filter_nil]
    unfold readLineLoop
    split <;> rfl
  | cons o input ih =>
    unfold uninterrupted at ih ⊢
    cases o with
    | eintr =>
      rw [List.filter_cons_of_neg (by decide)]
      exact ih b totRead
    | error =>
      rw [List.filter_cons_of_pos (by decide)]
      rfl
    | eof =>
      rw [List.filter_cons_of_pos (by decide)]
      unfold readLineLoop
      split <;> rfl
    | byte ch =>
      rw [List.filter_cons_of_pos (by simp)]
      unfold readLineLoop
      split
      · rfl
      · split
        · exact ih _ _
        · exact ih _ _

/-- Interruptions change neither the result nor the buffer, wherever they come. -/
theorem readLine_filter (hn0 : 0 < n) (b : Buffer size) (input : List ReadOutcome) :
    readLine n b (uninterrupted input) =
      { readLine n b input with rest := uninterrupted (readLine n b input).rest } := by
  unfold readLine
  rw [if_neg (by omega), if_neg (by omega)]
  exact readLineLoop_filter input b 0

theorem readLine_of_uninterrupted_eq (hn0 : 0 < n) (b : Buffer size)
    {input input' : List ReadOutcome} (h : uninterrupted input' = uninterrupted input) :
    (readLine n b input').numBytes = (readLine n b input).numBytes ∧
      (readLine n b input').buffer = (readLine n b input).buffer := by
  have heq := readLine_filter hn0 b input'
  rw [h, readLine_filter hn0 b input] at heq
  obtain ⟨hnum, hbuffer, -⟩ := LineRead.mk.inj heq
  exact ⟨hnum.symm, hbuffer.symm⟩

/-! ## The ending -/

/-- The outcomes up to the ending. -/
theorem exists_ending {input : List ReadOutcome} (h : ∃ o ∈ input, o.Ends) :
    ∃ before e rest, input = before ++ e :: rest ∧ (∀ o ∈ before, ¬ o.Ends) ∧ e.Ends := by
  induction input with
  | nil =>
    obtain ⟨o, ho, -⟩ := h
    exact absurd ho List.not_mem_nil
  | cons o input ih =>
    by_cases ho : o.Ends
    · exact ⟨[], o, input, rfl, nofun, ho⟩
    · obtain ⟨o', hmem, hends⟩ := h
      rcases List.mem_cons.1 hmem with rfl | hmem
      · exact absurd hends ho
      · obtain ⟨before, e, rest, rfl, hbefore, he⟩ := ih ⟨o', hmem, hends⟩
        exact ⟨o :: before, e, rest, rfl, List.forall_mem_cons.2 ⟨ho, hbefore⟩, he⟩

section Ending

variable {before rest : List ReadOutcome} {e : ReadOutcome} (hbefore : ∀ o ∈ before, ¬ o.Ends)
include hbefore

theorem endingOf_append (he : e.Ends) : endingOf (before ++ e :: rest) = some e := by
  unfold endingOf
  rw [List.find?_append, List.find?_eq_none.2 (by simpa using hbefore), Option.none_or,
    List.find?_cons_of_pos (by simpa using he)]

theorem fieldRead_append (he : e.Ends) :
    fieldRead (before ++ e :: rest) = before.filterMap ReadOutcome.byte? := by
  unfold fieldRead
  rw [List.takeWhile_append_of_pos (by simpa using hbefore),
    List.takeWhile_cons_of_neg (by simpa using he), List.append_nil]

theorem afterField_append (he : e.Ends) : afterField (before ++ e :: rest) = rest := by
  unfold afterField
  rw [List.dropWhile_append_of_pos (by simpa using hbefore),
    List.dropWhile_cons_of_neg (by simpa using he), List.tail_cons]

theorem plain_field : Plain (before.filterMap ReadOutcome.byte?) := by
  intro ch hch
  obtain ⟨o, ho, hbyte⟩ := List.mem_filterMap.1 hch
  cases o with
  | byte c =>
    obtain rfl := Option.some.inj hbyte
    exact hbefore _ ho
  | _ => cases hbyte

/-- What comes before the ending is read as its bytes are. -/
theorem readLineLoop_before (b : Buffer size) (totRead : Nat) :
    readLineLoop n (before ++ e :: rest) b totRead =
      readLineLoop n (received (before.filterMap ReadOutcome.byte?) ++ e :: rest) b totRead := by
  induction before generalizing b totRead with
  | nil => rfl
  | cons o before ih =>
    obtain ⟨ho, hbefore'⟩ := List.forall_mem_cons.1 hbefore
    cases o with
    | byte ch =>
      have hch : ¬ (ch = newline ∨ ch = nul) := ho
      have hbytes : (ReadOutcome.byte ch :: before).filterMap ReadOutcome.byte? =
          ch :: before.filterMap ReadOutcome.byte? := rfl
      rw [hbytes, received_cons, List.cons_append, List.cons_append, readLineLoop, readLineLoop,
        if_neg hch, if_neg hch]
      split
      · exact ih hbefore' _ _
      · exact ih hbefore' _ _
    | eintr => exact ih hbefore' b totRead
    | error => exact absurd trivial ho
    | eof => exact absurd trivial ho

/-- The loop arrives at the ending with the bytes that fit stored. -/
theorem readLine_before (hn0 : 0 < n) (hn : n ≤ size) (b : Buffer size) :
    ∃ b' : Buffer size,
      b'.bytes = overwrite ((before.filterMap ReadOutcome.byte?).take (n - 1)) b.bytes ∧
      readLine n b (before ++ e :: rest) =
        readLineLoop n (e :: rest) b'
          (min (before.filterMap ReadOutcome.byte?).length (n - 1)) := by
  obtain ⟨b', hb', hloop⟩ := readLineLoop_plain hn (plain_field hbefore) (e :: rest)
    (List.nil_append b.bytes).symm (Nat.zero_le _)
  simp only [List.nil_append, List.length_nil, Nat.sub_zero, Nat.zero_add] at hb' hloop
  refine ⟨b', hb', ?_⟩
  unfold readLine
  rw [if_neg (by omega), readLineLoop_before hbefore, hloop]

end Ending

/-! ## One field -/

/-- `readLine`, by what ends the field. -/
theorem readLine_ending (hn0 : 0 < n) (hn : n ≤ size) {input : List ReadOutcome}
    (h : ∃ o ∈ input, o.Ends) (b : Buffer size) :
    let s := fieldRead input
    let k := min s.length (n - 1)
    (endingOf input = some .error ∧ (readLine n b input).numBytes = -1) ∨
      (endingOf input = some .eof ∧ k = 0 ∧ readLine n b input = ⟨0, b, afterField input⟩) ∨
        endingOf input ≠ some .error ∧ ¬ (endingOf input = some .eof ∧ k = 0) ∧
          readLine n b input =
            ⟨k, b.fill (s.take (n - 1)) (length_take_lt hn0 hn s), afterField input⟩ := by
  obtain ⟨before, e, rest, rfl, hbefore, he⟩ := exists_ending h
  obtain ⟨b', hb', hread⟩ := @readLine_before _ _ before rest e hbefore hn0 hn b
  simp only [endingOf_append hbefore he, fieldRead_append hbefore he, afterField_append hbefore he]
  rw [hread]
  have hfill := store_nul_eq_fill hn0 hn hb'
  cases e with
  | eintr => exact absurd he id
  | error => exact .inl ⟨rfl, rfl⟩
  | eof =>
    by_cases hk : min (before.filterMap ReadOutcome.byte?).length (n - 1) = 0
    · refine .inr (.inl ⟨rfl, hk, ?_⟩)
      have htake : (before.filterMap ReadOutcome.byte?).take (n - 1) = [] := by
        rw [← List.length_eq_zero_iff, List.length_take, Nat.min_comm]
        exact hk
      rw [htake, overwrite_nil] at hb'
      rw [hk, Buffer.ext_bytes hb']
      rfl
    · refine .inr (.inr ⟨by decide, fun h => hk h.2, ?_⟩)
      unfold readLineLoop
      rw [if_neg hk, hfill]
  | byte ch =>
    refine .inr (.inr ⟨by simp, by simp, ?_⟩)
    have hch : ch = newline ∨ ch = nul := he
    unfold readLineLoop
    rw [if_pos hch, hfill]

/-- A buffer that begins with a NUL holds the empty field already. -/
theorem overwrite_nul_iff {bytes : Bytes} :
    bytes = overwrite [nul] bytes ↔ bytes.head? = some nul := by
  rw [eq_comm, overwrite_eq_self_iff]
  cases bytes with
  | nil => exact iff_of_false (fun h => absurd h.length_le (by decide)) nofun
  | cons c bytes =>
    rw [List.cons_prefix_cons, List.head?_cons, Option.some_inj, eq_comm]
    exact and_iff_left List.nil_prefix

/-- **`readLine` reads exactly one field**, unless the stream ends before anything is stored: then
the NUL is only there if the buffer began with one. -/
theorem readsField_iff (hn0 : 0 < n) (hn : n ≤ size) {input : List ReadOutcome}
    (h : ∃ o ∈ input, o.Ends) (b : Buffer size) :
    ReadsField n b input ↔
      ¬ (endingOf input = some .eof ∧ min (fieldRead input).length (n - 1) = 0 ∧
        b.bytes.head? ≠ some nul) := by
  have hinterruptions : ∀ input', uninterrupted input' = uninterrupted input →
      (readLine n b input').numBytes = (readLine n b input).numBytes ∧
        (readLine n b input').buffer = (readLine n b input).buffer :=
    fun _ => readLine_of_uninterrupted_eq hn0 b
  rcases readLine_ending hn0 hn h b with ⟨herror, hnum⟩ | ⟨heof, hk, hread⟩ | ⟨hne, hsome, hread⟩
  · refine iff_of_true ⟨iff_of_true hnum herror, fun hne => absurd herror hne, hinterruptions⟩ ?_
    rintro ⟨heof, -⟩
    rw [herror] at heof
    cases heof
  · have htake : (fieldRead input).take (n - 1) = [] := by
      rw [← List.length_eq_zero_iff, List.length_take, Nat.min_comm]
      exact hk
    have hne : endingOf input ≠ some .error := by
      rw [heof]
      decide
    constructor
    · rintro hfield ⟨-, -, hhead⟩
      have hbytes := (hfield.stored hne).2.1
      rw [hread, htake, List.nil_append] at hbytes
      exact hhead (overwrite_nul_iff.1 hbytes)
    · intro hcond
      have hhead : b.bytes.head? = some nul := by
        by_contra hhead
        exact hcond ⟨heof, hk, hhead⟩
      refine ⟨iff_of_false ?_ hne, fun _ => ?_, hinterruptions⟩
      · rw [hread]
        dsimp only
        omega
      · rw [hread, hk, htake, List.nil_append]
        exact ⟨rfl, overwrite_nul_iff.2 hhead, rfl⟩
  · refine iff_of_true ⟨iff_of_false ?_ hne, fun _ => ?_, hinterruptions⟩ ?_
    · rw [hread]
      dsimp only
      omega
    · rw [hread]
      exact ⟨rfl, rfl, rfl⟩
    · rintro ⟨heof, hk, -⟩
      exact hsome ⟨heof, hk⟩

end Loop

/-- A field that an interruption cuts in two. -/
theorem interrupted_readsField :
    ReadsField 4 (Buffer.zeros 4) [.byte 97, .eintr, .byte 98, .byte 10, .byte 99] :=
  (readsField_iff (by decide) (by decide) ⟨.byte 10, by decide, .inl rfl⟩ _).2 (by decide)

/-- At the end of the stream nothing is stored, not even the NUL. -/
theorem eof_not_readsField :
    ¬ ∀ (size n : Nat) (b : Buffer size) (input : List ReadOutcome), 0 < n → n ≤ size →
      (∃ o ∈ input, o.Ends) → ReadsField n b input := by
  intro h
  have hstored := (h 1 1 ⟨[97], rfl⟩ [.eof] (by decide) (by decide)
    ⟨.eof, List.mem_cons_self, trivial⟩).stored (by decide)
  exact absurd hstored.2.1 (by decide)

end DistributedSystems.Lab
