import Mathlib.Algebra.Group.Nat.Defs
import Mathlib.Data.List.Basic
import Mathlib.Data.Nat.Basic

/-!
# UTF-8

Text as bytes. `encode` writes characters; `decode` reads any bytes, one at a time, and puts a
replacement character for what is malformed: a byte that continues nothing, a sequence up to the
byte that breaks it, an encoded surrogate. A byte below `0x80` always stands for itself
(`decode_append_ascii`), such characters come from nothing else (`mem_decode_iff`), and what was
encoded is decoded (`decode_encode`).
-/

namespace DistributedSystems.Support.Utf8

def encode (cs : List Char) : List UInt8 := cs.flatMap String.utf8EncodeChar

/-- The replacement character. -/
def replacement : Char := '\uFFFD'

/-- A sequence that is not complete: how many bytes come after the next one, the bits so far and
the range of the next byte. It is the start of no character below `0x80`. -/
structure Pending where
  more : Nat
  bits : Nat
  lo : Nat
  hi : Nat
  lo_ge : 0x80 ≤ lo
  value_ge : 0x80 ≤ (bits * 64 + (lo - 0x80)) * 64 ^ more

/-- The character with a code point. -/
def ofBits (v : Nat) : Char := if v.isValidChar then .ofNat v else replacement

/-- A byte that begins a sequence. -/
def start (b : UInt8) : List Char × Option Pending :=
  if b.toNat < 0x80 then ([.ofNat b.toNat], none)
  else if h : 0xC2 ≤ b.toNat ∧ b.toNat ≤ 0xDF then
    ([], some ⟨0, b.toNat - 0xC0, 0x80, 0xBF, by omega, by omega⟩)
  else if b.toNat = 0xE0 then ([], some ⟨1, 0, 0xA0, 0xBF, by omega, by omega⟩)
  else if h : 0xE1 ≤ b.toNat ∧ b.toNat ≤ 0xEF then
    ([], some ⟨1, b.toNat - 0xE0, 0x80, 0xBF, by omega, by omega⟩)
  else if b.toNat = 0xF0 then ([], some ⟨2, 0, 0x90, 0xBF, by omega, by omega⟩)
  else if h : 0xF1 ≤ b.toNat ∧ b.toNat ≤ 0xF3 then
    ([], some ⟨2, b.toNat - 0xF0, 0x80, 0xBF, by omega, by omega⟩)
  else if b.toNat = 0xF4 then ([], some ⟨2, 4, 0x80, 0x8F, by omega, by omega⟩)
  else ([replacement], none)

/-- A byte that continues a sequence. -/
def Pending.next (p : Pending) (b : UInt8) (hb : p.lo ≤ b.toNat) : List Char × Option Pending :=
  match hm : p.more with
  | 0 => ([ofBits (p.bits * 64 + (b.toNat - 0x80))], none)
  | n + 1 =>
    ([], some ⟨n, p.bits * 64 + (b.toNat - 0x80), 0x80, 0xBF, by omega, by
      have hv := p.value_ge
      rw [hm, Nat.pow_succ', ← Nat.mul_assoc] at hv
      exact Nat.le_trans hv (Nat.mul_le_mul_right _ (by omega))⟩)

/-- One byte: the characters that are then known, and what is not complete. -/
def feed : Option Pending → UInt8 → List Char × Option Pending
  | none, b => start b
  | some p, b =>
    if h : p.lo ≤ b.toNat ∧ b.toNat ≤ p.hi then p.next b h.1
    else (replacement :: (start b).1, (start b).2)

/-- The character for what the end leaves incomplete. -/
def flush : Option Pending → List Char
  | none => []
  | some _ => [replacement]

def run : Option Pending → List UInt8 → List Char
  | st, [] => flush st
  | st, b :: bs => (feed st b).1 ++ run (feed st b).2 bs

def decode (bs : List UInt8) : List Char := run none bs

/-! ## Bytes below `0x80` -/

theorem start_ascii {b : UInt8} (hb : b.toNat < 0x80) : start b = ([.ofNat b.toNat], none) :=
  if_pos hb

theorem feed_ascii (st : Option Pending) {b : UInt8} (hb : b.toNat < 0x80) :
    feed st b = (flush st ++ [.ofNat b.toNat], none) := by
  cases st with
  | none => exact start_ascii hb
  | some p =>
    have hlo := p.lo_ge
    have hout : ¬ (p.lo ≤ b.toNat ∧ b.toNat ≤ p.hi) := by omega
    simp only [feed, dif_neg hout, start_ascii hb]
    rfl

theorem run_append_ascii (st : Option Pending) (s : List UInt8) {b : UInt8} (hb : b.toNat < 0x80)
    (rest : List UInt8) : run st (s ++ b :: rest) = run st s ++ .ofNat b.toNat :: decode rest := by
  induction s generalizing st with
  | nil => simp [run, feed_ascii st hb, decode]
  | cons c s ih => simp only [List.cons_append, run, ih, List.append_assoc]

/-- A byte below `0x80` stands for itself, whatever comes before it. -/
theorem decode_append_ascii (s : List UInt8) {b : UInt8} (hb : b.toNat < 0x80)
    (rest : List UInt8) : decode (s ++ b :: rest) = decode s ++ .ofNat b.toNat :: decode rest :=
  run_append_ascii none s hb rest

/-! ## Other bytes -/

theorem toNat_ofNat_of_valid {v : Nat} (h : v.isValidChar) : (Char.ofNat v).toNat = v := by
  unfold Char.ofNat
  rw [dif_pos h]
  rfl

theorem ofBits_ge {v : Nat} (hv : 0x80 ≤ v) : 0x80 ≤ (ofBits v).toNat := by
  unfold ofBits
  split
  · rename_i h
    rw [toNat_ofNat_of_valid h]
    exact hv
  · decide

theorem start_ge {b : UInt8} (hb : ¬ b.toNat < 0x80) :
    (start b).1 = [] ∧ (start b).2.isSome ∨ start b = ([replacement], none) := by
  unfold start
  rw [if_neg hb]
  split_ifs <;> simp

theorem next_ge (p : Pending) (b : UInt8) (hb : p.lo ≤ b.toNat) :
    (p.next b hb).1 = [] ∧ (p.next b hb).2.isSome ∨
      ∃ c, p.next b hb = ([c], none) ∧ 0x80 ≤ c.toNat := by
  have hv := p.value_ge
  unfold Pending.next
  split
  · rename_i hm
    rw [hm] at hv
    refine Or.inr ⟨_, rfl, ofBits_ge ?_⟩
    omega
  · exact Or.inl ⟨rfl, rfl⟩

theorem feed_ge (st : Option Pending) {b : UInt8} (hb : ¬ b.toNat < 0x80) :
    ∀ c ∈ (feed st b).1, 0x80 ≤ c.toNat := by
  have hrep : 0x80 ≤ replacement.toNat := by decide
  have hstart : ∀ c ∈ (start b).1, 0x80 ≤ c.toNat := by
    intro c hc
    rcases start_ge hb with ⟨h, -⟩ | h
    · rw [h] at hc; cases hc
    · rw [h] at hc; rw [List.mem_singleton.1 hc]; exact hrep
  intro c hc
  cases st with
  | none => exact hstart c hc
  | some p =>
    simp only [feed] at hc
    split at hc
    · rename_i h
      rcases next_ge p b h.1 with ⟨hn, -⟩ | ⟨c', hn, hge⟩
      · rw [hn] at hc; cases hc
      · rw [hn] at hc; rw [List.mem_singleton.1 hc]; exact hge
    · rcases List.mem_cons.1 hc with rfl | hc
      · exact hrep
      · exact hstart c hc

/-- What comes of bytes after an incomplete sequence begins with a character that is
none of theirs. -/
theorem run_pending (p : Pending) (s : List UInt8) :
    ∃ c cs, run (some p) s = c :: cs ∧ 0x80 ≤ c.toNat := by
  have hrep : 0x80 ≤ replacement.toNat := by decide
  induction s generalizing p with
  | nil => exact ⟨replacement, [], rfl, hrep⟩
  | cons b s ih =>
    simp only [run, feed]
    split
    · rename_i h
      rcases next_ge p b h.1 with ⟨hn, hs⟩ | ⟨c, hn, hge⟩
      · obtain ⟨p', hp'⟩ := Option.isSome_iff_exists.1 hs
        rw [hn, hp']
        exact ih p'
      · rw [hn]
        exact ⟨c, _, rfl, hge⟩
    · exact ⟨replacement, _, rfl, hrep⟩

theorem flush_ge (st : Option Pending) : ∀ c ∈ flush st, 0x80 ≤ c.toNat := by
  intro c hc
  cases st with
  | none => cases hc
  | some p => rw [List.mem_singleton.1 hc]; decide

theorem mem_run {c : Char} (hc : c.toNat < 0x80) (st : Option Pending) (s : List UInt8)
    (h : c ∈ run st s) : ∃ b ∈ s, b.toNat < 0x80 ∧ c = .ofNat b.toNat := by
  induction s generalizing st with
  | nil =>
    have hge := flush_ge st c h
    omega
  | cons b s ih =>
    rw [run, List.mem_append] at h
    rcases h with h | h
    · by_cases hb : b.toNat < 0x80
      · rw [feed_ascii st hb, List.mem_append, List.mem_singleton] at h
        rcases h with h | rfl
        · have hge := flush_ge st c h
          omega
        · exact ⟨b, List.mem_cons_self, hb, rfl⟩
      · have hge := feed_ge st hb c h
        omega
    · obtain ⟨b', hb', hlt, hc'⟩ := ih _ h
      exact ⟨b', List.mem_cons_of_mem _ hb', hlt, hc'⟩

theorem toNat_ofNat_ascii {n : Nat} (h : n < 0x80) : (Char.ofNat n).toNat = n :=
  toNat_ofNat_of_valid (Or.inl (by omega))

/-- The characters below `0x80` are those of the bytes below it. -/
theorem mem_decode_iff {b : UInt8} (hb : b.toNat < 0x80) {s : List UInt8} :
    Char.ofNat b.toNat ∈ decode s ↔ b ∈ s := by
  constructor
  · intro h
    obtain ⟨b', hb', hlt, he⟩ := mem_run (by rw [toNat_ofNat_ascii hb]; exact hb) none s h
    have hnat := congrArg Char.toNat he
    rw [toNat_ofNat_ascii hb, toNat_ofNat_ascii hlt] at hnat
    rwa [UInt8.toNat_inj.1 hnat]
  · intro h
    obtain ⟨s, t, rfl⟩ := List.append_of_mem h
    rw [decode_append_ascii s hb t]
    simp

/-- The first character is below `0x80` if the first byte is, and it is that byte then. -/
theorem head?_decode (b : UInt8) (s : List UInt8) :
    ∃ c cs, decode (b :: s) = c :: cs ∧
      (b.toNat < 0x80 ∧ c.toNat = b.toNat ∨ ¬ b.toNat < 0x80 ∧ 0x80 ≤ c.toNat) := by
  by_cases hb : b.toNat < 0x80
  · refine ⟨.ofNat b.toNat, decode s, ?_, Or.inl ⟨hb, toNat_ofNat_ascii hb⟩⟩
    exact decode_append_ascii [] hb s
  · unfold decode
    rw [run, feed]
    rcases start_ge hb with ⟨h, hs⟩ | h
    · obtain ⟨p, hp⟩ := Option.isSome_iff_exists.1 hs
      obtain ⟨c, cs, hrun, hge⟩ := run_pending p s
      rw [h, hp]
      exact ⟨c, cs, hrun, Or.inr ⟨hb, hge⟩⟩
    · rw [h]
      exact ⟨replacement, _, rfl, Or.inr ⟨hb, by decide⟩⟩

theorem run_append (st : Option Pending) (s : List UInt8) :
    ∃ out st', ∀ t, run st (s ++ t) = out ++ run st' t := by
  induction s generalizing st with
  | nil => exact ⟨[], st, fun t => rfl⟩
  | cons b s ih =>
    obtain ⟨out, st', h⟩ := ih (feed st b).2
    exact ⟨(feed st b).1 ++ out, st', fun t => by rw [List.cons_append, run, h, List.append_assoc]⟩

/-- The last character is below `0x80` if the last byte is, and it is that byte then. -/
theorem getLast?_decode (s : List UInt8) (b : UInt8) :
    ∃ cs c, decode (s ++ [b]) = cs ++ [c] ∧
      (b.toNat < 0x80 ∧ c.toNat = b.toNat ∨ ¬ b.toNat < 0x80 ∧ 0x80 ≤ c.toNat) := by
  by_cases hb : b.toNat < 0x80
  · refine ⟨decode s, .ofNat b.toNat, ?_, Or.inl ⟨hb, toNat_ofNat_ascii hb⟩⟩
    exact decode_append_ascii s hb []
  · obtain ⟨out, st, hrun⟩ := run_append none s
    have hge : ∀ c ∈ run st [b], 0x80 ≤ c.toNat := by
      intro c hc
      rw [run, List.mem_append] at hc
      rcases hc with hc | hc
      · exact feed_ge st hb c hc
      · exact flush_ge _ c hc
    have hne : run st [b] ≠ [] := by
      cases st with
      | none =>
        obtain ⟨c, cs, h, -⟩ := head?_decode b []
        change decode [b] ≠ []
        rw [h]
        exact List.cons_ne_nil c cs
      | some p =>
        obtain ⟨c, cs, h, -⟩ := run_pending p [b]
        rw [h]
        exact List.cons_ne_nil c cs
    unfold decode
    rw [hrun, ← List.dropLast_concat_getLast hne, ← List.append_assoc]
    exact ⟨_, _, rfl, Or.inr ⟨hb, hge _ (List.getLast_mem hne)⟩⟩

/-! ## Encoded text -/

/-- The bits of a sequence whose first byte has given some. -/
def value (bits : Nat) (tails : List UInt8) : Nat :=
  tails.foldl (fun v b => v * 64 + (b.toNat - 0x80)) bits

theorem next_last {p : Pending} {b : UInt8} (hb : p.lo ≤ b.toNat) (hm : p.more = 0) :
    p.next b hb = ([ofBits (p.bits * 64 + (b.toNat - 0x80))], none) := by
  obtain ⟨more, bits, lo, hi, hlo, hv⟩ := p
  obtain rfl : more = 0 := hm
  rfl

theorem next_more {p : Pending} {b : UInt8} (hb : p.lo ≤ b.toNat) {n : Nat}
    (hm : p.more = n + 1) :
    ∃ p', p.next b hb = ([], some p') ∧ p'.more = n ∧
      p'.bits = p.bits * 64 + (b.toNat - 0x80) ∧ p'.lo = 0x80 ∧ p'.hi = 0xBF := by
  obtain ⟨more, bits, lo, hi, hlo, hv⟩ := p
  obtain rfl : more = n + 1 := hm
  exact ⟨_, rfl, rfl, rfl, rfl, rfl⟩

theorem value_cons (bits : Nat) (b : UInt8) (tails : List UInt8) :
    value bits (b :: tails) = value (bits * 64 + (b.toNat - 0x80)) tails := by
  unfold value
  rw [List.foldl_cons]

/-- A sequence that is completed. -/
theorem run_complete (p : Pending) {b : UInt8} (hb : p.lo ≤ b.toNat ∧ b.toNat ≤ p.hi)
    {tails : List UInt8} (ht : ∀ x ∈ tails, 0x80 ≤ x.toNat ∧ x.toNat ≤ 0xBF)
    (hlen : tails.length = p.more) (rest : List UInt8) :
    run (some p) (b :: (tails ++ rest)) = ofBits (value p.bits (b :: tails)) :: decode rest := by
  induction tails generalizing p b with
  | nil =>
    rw [List.nil_append, run, feed, dif_pos hb, next_last hb.1 hlen.symm]
    rfl
  | cons c tails ih =>
    obtain ⟨hc, ht⟩ := List.forall_mem_cons.1 ht
    obtain ⟨p', hnext, hmore, hbits, hlo, hhi⟩ := next_more hb.1 hlen.symm
    rw [List.cons_append, run, feed, dif_pos hb, hnext]
    have hrest := ih p' (by rw [hlo, hhi]; exact hc) ht hmore.symm
    rw [hbits, ← value_cons] at hrest
    exact hrest

theorem toNat_ofNat_byte {n : Nat} (h : n < 256) : (UInt8.ofNat n).toNat = n := by
  rw [UInt8.toNat_ofNat']
  omega

/-- The first byte of two. -/
theorem start_two {b : UInt8} (h : 0xC2 ≤ b.toNat ∧ b.toNat ≤ 0xDF) :
    ∃ p, start b = ([], some p) ∧ p.more = 0 ∧ p.bits = b.toNat - 0xC0 ∧ p.lo = 0x80 ∧
      p.hi = 0xBF := by
  unfold start
  rw [if_neg (by omega), dif_pos h]
  exact ⟨_, rfl, rfl, rfl, rfl, rfl⟩

/-- The first byte of three. -/
theorem start_three {b : UInt8} (h : 0xE0 ≤ b.toNat ∧ b.toNat ≤ 0xEF) :
    ∃ p, start b = ([], some p) ∧ p.more = 1 ∧ p.bits = b.toNat - 0xE0 ∧
      p.lo = (if b.toNat = 0xE0 then 0xA0 else 0x80) ∧ p.hi = 0xBF := by
  unfold start
  rw [if_neg (by omega), dif_neg (by omega)]
  by_cases h0 : b.toNat = 0xE0
  · rw [if_pos h0, if_pos h0, h0]
    exact ⟨_, rfl, rfl, rfl, rfl, rfl⟩
  · rw [if_neg h0, if_neg h0, dif_pos (by omega)]
    exact ⟨_, rfl, rfl, rfl, rfl, rfl⟩

/-- The first byte of four. -/
theorem start_four {b : UInt8} (h : 0xF0 ≤ b.toNat ∧ b.toNat ≤ 0xF4) :
    ∃ p, start b = ([], some p) ∧ p.more = 2 ∧ p.bits = b.toNat - 0xF0 ∧
      p.lo = (if b.toNat = 0xF0 then 0x90 else 0x80) ∧
      p.hi = if b.toNat = 0xF4 then 0x8F else 0xBF := by
  unfold start
  rw [if_neg (by omega), dif_neg (by omega), if_neg (by omega), dif_neg (by omega)]
  by_cases h0 : b.toNat = 0xF0
  · rw [if_pos h0, if_pos h0, if_neg (by omega), h0]
    exact ⟨_, rfl, rfl, rfl, rfl, rfl⟩
  by_cases h4 : b.toNat = 0xF4
  · rw [if_neg h0, if_neg h0, dif_neg (by omega), if_pos h4, if_pos h4, h4]
    exact ⟨_, rfl, rfl, rfl, rfl, rfl⟩
  · rw [if_neg h0, if_neg h0, dif_pos (by omega), if_neg h4]
    exact ⟨_, rfl, rfl, rfl, rfl, rfl⟩

/-- A whole sequence, by what its first byte gives. -/
theorem decode_sequence {lead b : UInt8} {p : Pending} (hstart : start lead = ([], some p))
    (hb : p.lo ≤ b.toNat ∧ b.toNat ≤ p.hi) (tails : List UInt8)
    (ht : ∀ x ∈ tails, 0x80 ≤ x.toNat ∧ x.toNat ≤ 0xBF) (hlen : tails.length = p.more)
    (rest : List UInt8) :
    decode (lead :: b :: (tails ++ rest)) = ofBits (value p.bits (b :: tails)) :: decode rest := by
  unfold decode
  rw [run, feed, hstart]
  exact run_complete p hb ht hlen rest

theorem ofBits_toNat (c : Char) : ofBits c.toNat = c := by
  have hvalid : c.toNat.isValidChar := c.valid
  unfold ofBits
  rw [if_pos hvalid, Char.ofNat_toNat]

/-- The byte that carries six bits behind the first one. -/
theorem toNat_tail (n : Nat) : (UInt8.ofNat (n % 64 + 128)).toNat = n % 64 + 128 :=
  toNat_ofNat_byte (by omega)

theorem tail_range (n : Nat) : 0x80 ≤ (UInt8.ofNat (n % 64 + 128)).toNat ∧
    (UInt8.ofNat (n % 64 + 128)).toNat ≤ 0xBF := by
  rw [toNat_tail]
  omega

section Sequences

variable {c : Char} (rest : List UInt8)

theorem decode_one (h : c.toNat ≤ 0x7F) :
    decode (UInt8.ofNat c.toNat :: rest) = c :: decode rest := by
  have hone : (UInt8.ofNat c.toNat).toNat = c.toNat := toNat_ofNat_byte (by omega)
  have hdecode := decode_append_ascii [] (b := UInt8.ofNat c.toNat) (by omega) rest
  rw [hone, Char.ofNat_toNat] at hdecode
  exact hdecode

theorem decode_two (h : 0x7F < c.toNat ∧ c.toNat ≤ 0x7FF) :
    decode (UInt8.ofNat (c.toNat / 64 % 32 + 192) :: UInt8.ofNat (c.toNat % 64 + 128) :: rest) =
      c :: decode rest := by
  have hlead : (UInt8.ofNat (c.toNat / 64 % 32 + 192)).toNat = c.toNat / 64 % 32 + 192 :=
    toNat_ofNat_byte (by omega)
  obtain ⟨p, hstart, hmore, hbits, hlo, hhi⟩ := start_two (b := UInt8.ofNat _) (by
    rw [hlead]; omega)
  have hdecode := decode_sequence hstart (b := UInt8.ofNat (c.toNat % 64 + 128))
    (by rw [hlo, hhi]; exact tail_range _) [] (by simp) hmore.symm rest
  rw [hbits, hlead] at hdecode
  simp only [value, List.foldl_cons, List.foldl_nil, toNat_tail, List.nil_append] at hdecode
  have hv : (c.toNat / 64 % 32 + 192 - 0xC0) * 64 + (c.toNat % 64 + 128 - 0x80) = c.toNat := by
    omega
  rw [hv, ofBits_toNat] at hdecode
  exact hdecode

theorem decode_three (hvalid : c.toNat < 0xD800 ∨ 0xDFFF < c.toNat)
    (h : 0x7FF < c.toNat ∧ c.toNat ≤ 0xFFFF) :
    decode (UInt8.ofNat (c.toNat / 4096 % 16 + 224) :: UInt8.ofNat (c.toNat / 64 % 64 + 128) ::
      UInt8.ofNat (c.toNat % 64 + 128) :: rest) = c :: decode rest := by
  have hlead : (UInt8.ofNat (c.toNat / 4096 % 16 + 224)).toNat = c.toNat / 4096 % 16 + 224 :=
    toNat_ofNat_byte (by omega)
  obtain ⟨p, hstart, hmore, hbits, hlo, hhi⟩ := start_three (b := UInt8.ofNat _) (by
    rw [hlead]; omega)
  -- the second byte leaves out what is encoded in two bytes, and the surrogates
  have hlow : p.lo ≤ c.toNat / 64 % 64 + 128 ∧ c.toNat / 64 % 64 + 128 ≤ p.hi := by
    rw [hlo, hhi, hlead]
    rcases hvalid with hbelow | habove
    · split <;> omega
    · split <;> omega
  have hdecode := decode_sequence hstart (b := UInt8.ofNat (c.toNat / 64 % 64 + 128))
    (by rw [toNat_tail]; exact hlow) [UInt8.ofNat (c.toNat % 64 + 128)]
    (by intro x hx; rw [List.mem_singleton.1 hx]; exact tail_range _) hmore.symm rest
  rw [hbits, hlead] at hdecode
  simp only [value, List.foldl_cons, List.foldl_nil, toNat_tail, List.cons_append,
    List.nil_append] at hdecode
  have hv : ((c.toNat / 4096 % 16 + 224 - 0xE0) * 64 + (c.toNat / 64 % 64 + 128 - 0x80)) * 64 +
      (c.toNat % 64 + 128 - 0x80) = c.toNat := by omega
  rw [hv, ofBits_toNat] at hdecode
  exact hdecode

theorem decode_four (h : 0xFFFF < c.toNat ∧ c.toNat < 0x110000) :
    decode (UInt8.ofNat (c.toNat / 262144 % 8 + 240) :: UInt8.ofNat (c.toNat / 4096 % 64 + 128) ::
      UInt8.ofNat (c.toNat / 64 % 64 + 128) :: UInt8.ofNat (c.toNat % 64 + 128) :: rest) =
        c :: decode rest := by
  have hlead : (UInt8.ofNat (c.toNat / 262144 % 8 + 240)).toNat = c.toNat / 262144 % 8 + 240 :=
    toNat_ofNat_byte (by omega)
  obtain ⟨p, hstart, hmore, hbits, hlo, hhi⟩ := start_four (b := UInt8.ofNat _) (by
    rw [hlead]; omega)
  have hlow : p.lo ≤ c.toNat / 4096 % 64 + 128 ∧ c.toNat / 4096 % 64 + 128 ≤ p.hi := by
    rw [hlo, hhi, hlead]
    constructor <;> split <;> omega
  have hdecode := decode_sequence hstart (b := UInt8.ofNat (c.toNat / 4096 % 64 + 128))
    (by rw [toNat_tail]; exact hlow)
    [UInt8.ofNat (c.toNat / 64 % 64 + 128), UInt8.ofNat (c.toNat % 64 + 128)]
    (by
      intro x hx
      rcases List.mem_cons.1 hx with rfl | hx
      · exact tail_range _
      · rw [List.mem_singleton.1 hx]; exact tail_range _) hmore.symm rest
  rw [hbits, hlead] at hdecode
  simp only [value, List.foldl_cons, List.foldl_nil, toNat_tail, List.cons_append,
    List.nil_append] at hdecode
  have hv : (((c.toNat / 262144 % 8 + 240 - 0xF0) * 64 +
      (c.toNat / 4096 % 64 + 128 - 0x80)) * 64 + (c.toNat / 64 % 64 + 128 - 0x80)) * 64 +
        (c.toNat % 64 + 128 - 0x80) = c.toNat := by omega
  rw [hv, ofBits_toNat] at hdecode
  exact hdecode

end Sequences

/-- **A character** comes back from its bytes. -/
theorem decode_encodeChar (c : Char) (rest : List UInt8) :
    decode (String.utf8EncodeChar c ++ rest) = c :: decode rest := by
  have hvalid : c.toNat < 0xD800 ∨ 0xDFFF < c.toNat ∧ c.toNat < 0x110000 := c.valid
  unfold String.utf8EncodeChar
  change decode ((if c.toNat ≤ 0x7F then [UInt8.ofNat c.toNat] else _) ++ rest) = _
  split_ifs with h1 h2 h3
  · exact decode_one rest h1
  · exact decode_two rest ⟨Nat.not_le.1 h1, h2⟩
  · exact decode_three rest (hvalid.imp_right And.left) ⟨Nat.not_le.1 h2, h3⟩
  · have hfour : 0xFFFF < c.toNat := Nat.not_le.1 h3
    exact decode_four rest ⟨hfour, by omega⟩

/-- **What was encoded is decoded.** -/
theorem decode_encode (cs : List Char) : decode (encode cs) = cs := by
  induction cs with
  | nil => rfl
  | cons c cs ih =>
    change decode (String.utf8EncodeChar c ++ encode cs) = c :: cs
    rw [decode_encodeChar, ih]

/-- Bytes that each stand for a character come back. -/
theorem encode_decode_ascii {s : List UInt8} (h : ∀ b ∈ s, b.toNat < 0x80) :
    encode (decode s) = s := by
  induction s with
  | nil => rfl
  | cons b s ih =>
    obtain ⟨hb, hs⟩ := List.forall_mem_cons.1 h
    have hchar : (Char.ofNat b.toNat).val.toNat = b.toNat := toNat_ofNat_ascii hb
    have hbyte : String.utf8EncodeChar (.ofNat b.toNat) = [b] := by
      unfold String.utf8EncodeChar
      rw [hchar]
      dsimp only
      rw [if_pos (by omega)]
      simp
    have hdecode := decode_append_ascii [] hb s
    rw [List.nil_append] at hdecode
    rw [hdecode]
    unfold encode
    have ih := ih hs
    unfold encode at ih
    change (Char.ofNat b.toNat :: decode s).flatMap _ = _
    rw [List.flatMap_cons, hbyte, ih]
    rfl

end DistributedSystems.Support.Utf8
