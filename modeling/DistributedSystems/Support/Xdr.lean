import Mathlib.Algebra.Group.Int.Defs
import Mathlib.Algebra.Group.Nat.Defs
import Mathlib.Data.List.Infix
import Mathlib.Data.List.TakeWhile
import Mathlib.Logic.Equiv.Defs

/-!
# External data representation

`Xdr α` is a filter for the values of one type: what it writes of a value, what it reads from the
start of some bytes, and the values that it carries, with the three laws that make a format of it.
A carried value is read back whatever follows it, only carried values are ever read, and what has
been read does not depend on what follows. Filters are put together from numbers and strings by
`seq`, `array` and `congr`, and the laws come along. A message that is cut short is refused
(`decode_of_cut`).
-/

namespace DistributedSystems.Support

/-- A filter, with the values that it carries. -/
structure Xdr (α : Type) where
  Carries : α → Prop
  encode : α → Option (List UInt8)
  decode : List UInt8 → Option (α × List UInt8)
  decode_encode : ∀ a, Carries a →
    ∃ bytes, encode a = some bytes ∧ ∀ rest, decode (bytes ++ rest) = some (a, rest)
  carries_decode : ∀ bytes a rest, decode bytes = some (a, rest) → Carries a
  decode_append : ∀ bytes a rest, decode bytes = some (a, rest) →
    ∀ more, decode (bytes ++ more) = some (a, rest ++ more)

namespace Xdr

/-! ## Numbers -/

/-- The four bytes of an unsigned number, the highest one first. -/
def word (n : Nat) : List UInt8 :=
  [UInt8.ofNat (n / 16777216 % 256), UInt8.ofNat (n / 65536 % 256), UInt8.ofNat (n / 256 % 256),
    UInt8.ofNat (n % 256)]

def readWord : List UInt8 → Option (Nat × List UInt8)
  | b₃ :: b₂ :: b₁ :: b₀ :: rest =>
    some (((b₃.toNat * 256 + b₂.toNat) * 256 + b₁.toNat) * 256 + b₀.toNat, rest)
  | _ => none

theorem readWord_word {n : Nat} (h : n < 2 ^ 32) (rest : List UInt8) :
    readWord (word n ++ rest) = some (n, rest) := by
  have hbyte : ∀ k, (UInt8.ofNat (k % 256)).toNat = k % 256 := by
    intro k
    rw [UInt8.toNat_ofNat']
    exact Nat.mod_eq_of_lt (by omega)
  have hsum : ((n / 16777216 % 256 * 256 + n / 65536 % 256) * 256 + n / 256 % 256) * 256 +
      n % 256 = n := by omega
  simp only [word, List.cons_append, List.nil_append, readWord, hbyte, hsum]

theorem readWord_eq_some {bytes rest : List UInt8} {n : Nat}
    (h : readWord bytes = some (n, rest)) :
    n < 2 ^ 32 ∧ ∀ more, readWord (bytes ++ more) = some (n, rest ++ more) := by
  match bytes with
  | b₃ :: b₂ :: b₁ :: b₀ :: tail =>
    obtain ⟨rfl, rfl⟩ := Prod.mk.inj (Option.some.inj h)
    have h₃ := b₃.toNat_lt
    have h₂ := b₂.toNat_lt
    have h₁ := b₁.toNat_lt
    have h₀ := b₀.toNat_lt
    exact ⟨by omega, fun _ => rfl⟩
  | [] | [_] | [_, _] | [_, _, _] => cases h

/-- A word as a number with a sign. -/
def signed (w : Nat) : Int := if w < 2 ^ 31 then (w : Int) else (w : Int) - 2 ^ 32

theorem signed_word {n : Int} (h : -2 ^ 31 ≤ n ∧ n < 2 ^ 31) : signed (n % 2 ^ 32).toNat = n := by
  unfold signed
  split <;> omega

/-- `xdr_int`. -/
def int : Xdr Int where
  Carries n := -2 ^ 31 ≤ n ∧ n < 2 ^ 31
  encode n := some (word (n % 2 ^ 32).toNat)
  decode bytes := (readWord bytes).map fun r => (signed r.1, r.2)
  decode_encode n hn := by
    refine ⟨_, rfl, fun rest => ?_⟩
    rw [readWord_word (by omega), Option.map_some, signed_word hn]
  carries_decode bytes n rest h := by
    obtain ⟨⟨w, tail⟩, hword, hr⟩ := Option.map_eq_some_iff.1 h
    obtain ⟨rfl, -⟩ := Prod.mk.inj hr
    have hlt := (readWord_eq_some hword).1
    unfold signed
    split <;> omega
  decode_append bytes n rest h more := by
    obtain ⟨⟨w, tail⟩, hword, hr⟩ := Option.map_eq_some_iff.1 h
    obtain ⟨rfl, rfl⟩ := Prod.mk.inj hr
    rw [(readWord_eq_some hword).2 more, Option.map_some]

/-! ## Strings -/

/-- How many bytes make `n` a multiple of four. -/
def padding (n : Nat) : Nat := (4 - n % 4) % 4

/-- `n` bytes, and the ones that pad them. Nothing looks at the padding. -/
def readOpaque (n : Nat) (bytes : List UInt8) : Option (List UInt8 × List UInt8) :=
  if n + padding n ≤ bytes.length then some (bytes.take n, bytes.drop (n + padding n)) else none

theorem readOpaque_padded (s rest : List UInt8) :
    readOpaque s.length (s ++ List.replicate (padding s.length) 0 ++ rest) = some (s, rest) := by
  have hlength : (s ++ List.replicate (padding s.length) 0).length =
      s.length + padding s.length := by
    rw [List.length_append, List.length_replicate]
  unfold readOpaque
  rw [if_pos (by rw [List.length_append, hlength]; omega), ← hlength, List.drop_left,
    List.append_assoc, List.take_left]

theorem readOpaque_eq_some {n : Nat} {bytes s rest : List UInt8}
    (h : readOpaque n bytes = some (s, rest)) :
    s.length = n ∧ ∀ more, readOpaque n (bytes ++ more) = some (s, rest ++ more) := by
  unfold readOpaque at h
  split at h
  · next hle =>
    obtain ⟨rfl, rfl⟩ := Prod.mk.inj (Option.some.inj h)
    refine ⟨by rw [List.length_take]; omega, fun more => ?_⟩
    unfold readOpaque
    rw [if_pos (by rw [List.length_append]; omega), List.take_append_of_le_length (by omega),
      List.drop_append_of_le_length hle]
  · cases h

/-- What `xdr_string` reads: a length, and that many bytes, of which the zero byte ends the
string. -/
def readString (maxsize : Nat) (bytes : List UInt8) : Option (List UInt8 × List UInt8) := do
  let (size, tail) ← readWord bytes
  if maxsize < size then none
  else
    let (s, rest) ← readOpaque size tail
    return (s.takeWhile (· ≠ 0), rest)

theorem readString_eq_some {maxsize : Nat} {bytes s rest : List UInt8}
    (h : readString maxsize bytes = some (s, rest)) :
    ∃ size tail raw, readWord bytes = some (size, tail) ∧ size ≤ maxsize ∧
      readOpaque size tail = some (raw, rest) ∧ s = raw.takeWhile (· ≠ 0) := by
  obtain ⟨⟨size, tail⟩, hword, h⟩ := Option.bind_eq_some_iff.1 h
  dsimp only at h
  split at h
  · cases h
  · next hle =>
    obtain ⟨⟨s', rest'⟩, hraw, h⟩ := Option.bind_eq_some_iff.1 h
    obtain ⟨rfl, rfl⟩ := Prod.mk.inj (Option.some.inj h)
    exact ⟨size, tail, s', hword, by omega, hraw, rfl⟩

theorem readString_of {maxsize size : Nat} {bytes tail s rest : List UInt8}
    (hword : readWord bytes = some (size, tail)) (hle : size ≤ maxsize)
    (hraw : readOpaque size tail = some (s, rest)) :
    readString maxsize bytes = some (s.takeWhile (· ≠ 0), rest) := by
  simp only [readString, hword, Option.bind_eq_bind, Option.bind_some, if_neg (Nat.not_lt.2 hle),
    hraw]
  rfl

/-- `xdr_string` of a C string. The length is the `u_int` of `strlen`. -/
def string (maxsize : Nat) : Xdr (List UInt8) where
  Carries s := s.length ≤ maxsize ∧ s.length < 2 ^ 32 ∧ 0 ∉ s
  encode s :=
    let size := s.length % 2 ^ 32
    if maxsize < size then none
    else some (word size ++ (s.take size ++ List.replicate (padding size) 0))
  decode := readString maxsize
  decode_encode s hs := by
    obtain ⟨hmax, hword, hnul⟩ := hs
    dsimp only
    rw [Nat.mod_eq_of_lt hword, if_neg (Nat.not_lt.2 hmax), List.take_length]
    refine ⟨_, rfl, fun rest => ?_⟩
    have hself : s.takeWhile (· ≠ 0) = s := by
      refine List.takeWhile_eq_self_iff.2 fun b hb => ?_
      have hne : b ≠ 0 := fun h0 => hnul (h0 ▸ hb)
      simpa using hne
    rw [List.append_assoc, readString_of (readWord_word hword _) hmax (readOpaque_padded s rest),
      hself]
  carries_decode bytes s rest h := by
    obtain ⟨size, tail, s', hword, hle, hraw, rfl⟩ := readString_eq_some h
    have hlength := (List.takeWhile_prefix (p := (· ≠ (0 : UInt8))) (l := s')).length_le
    have hsize := (readOpaque_eq_some hraw).1
    have hlt := (readWord_eq_some hword).1
    refine ⟨by omega, by omega, fun hmem => ?_⟩
    simpa using List.mem_takeWhile_imp hmem
  decode_append bytes s rest h more := by
    obtain ⟨size, tail, s', hword, hle, hraw, rfl⟩ := readString_eq_some h
    exact readString_of ((readWord_eq_some hword).2 more) hle ((readOpaque_eq_some hraw).2 more)

/-- `xdr_wrapstring`: a string with no bound but that of its length. -/
def wrapstring : Xdr (List UInt8) := string (2 ^ 32 - 1)

/-! ## Putting filters together -/

variable {α β : Type}

/-- One value after the other. -/
def seq (f : Xdr α) (g : Xdr β) : Xdr (α × β) where
  Carries p := f.Carries p.1 ∧ g.Carries p.2
  encode p := do
    let bytes ← f.encode p.1
    let bytes' ← g.encode p.2
    return bytes ++ bytes'
  decode bytes := do
    let (a, tail) ← f.decode bytes
    let (b, rest) ← g.decode tail
    return ((a, b), rest)
  decode_encode p hp := by
    obtain ⟨bytes, hf, hdf⟩ := f.decode_encode p.1 hp.1
    obtain ⟨bytes', hg, hdg⟩ := g.decode_encode p.2 hp.2
    refine ⟨bytes ++ bytes', by rw [hf, hg]; rfl, fun rest => ?_⟩
    simp only [List.append_assoc, hdf, hdg, Option.bind_eq_bind, Option.bind_some, Option.pure_def]
  carries_decode bytes p rest h := by
    obtain ⟨⟨a, tail⟩, hf, h⟩ := Option.bind_eq_some_iff.1 h
    obtain ⟨⟨b, rest'⟩, hg, h⟩ := Option.bind_eq_some_iff.1 h
    obtain ⟨rfl, -⟩ := Prod.mk.inj (Option.some.inj h)
    exact ⟨f.carries_decode _ _ _ hf, g.carries_decode _ _ _ hg⟩
  decode_append bytes p rest h more := by
    obtain ⟨⟨a, tail⟩, hf, h⟩ := Option.bind_eq_some_iff.1 h
    obtain ⟨⟨b, rest'⟩, hg, h⟩ := Option.bind_eq_some_iff.1 h
    obtain ⟨rfl, rfl⟩ := Prod.mk.inj (Option.some.inj h)
    simp only [f.decode_append _ _ _ hf more, g.decode_append _ _ _ hg more, Option.bind_eq_bind,
      Option.bind_some, Option.pure_def]

/-- The filter of a type that has the same values under another name. -/
def congr (e : α ≃ β) (f : Xdr α) : Xdr β where
  Carries b := f.Carries (e.symm b)
  encode b := f.encode (e.symm b)
  decode bytes := (f.decode bytes).map fun r => (e r.1, r.2)
  decode_encode b hb := by
    obtain ⟨bytes, henc, hdec⟩ := f.decode_encode _ hb
    refine ⟨bytes, henc, fun rest => ?_⟩
    rw [hdec, Option.map_some, Equiv.apply_symm_apply]
  carries_decode bytes b rest h := by
    obtain ⟨⟨a, tail⟩, hf, hr⟩ := Option.map_eq_some_iff.1 h
    obtain ⟨rfl, -⟩ := Prod.mk.inj hr
    rw [Equiv.symm_apply_apply]
    exact f.carries_decode _ _ _ hf
  decode_append bytes b rest h more := by
    obtain ⟨⟨a, tail⟩, hf, hr⟩ := Option.map_eq_some_iff.1 h
    obtain ⟨rfl, rfl⟩ := Prod.mk.inj hr
    rw [f.decode_append _ _ _ hf more, Option.map_some]

/-! ### Arrays -/

section Array

variable (f : Xdr α)

def encodeAll : List α → Option (List UInt8)
  | [] => some []
  | a :: list => do
    let bytes ← f.encode a
    let bytes' ← encodeAll list
    return bytes ++ bytes'

def decodeMany : Nat → List UInt8 → Option (List α × List UInt8)
  | 0, bytes => some ([], bytes)
  | n + 1, bytes => do
    let (a, tail) ← f.decode bytes
    let (list, rest) ← decodeMany n tail
    return (a :: list, rest)

theorem decodeMany_encodeAll {list : List α} (h : ∀ a ∈ list, f.Carries a) :
    ∃ bytes, f.encodeAll list = some bytes ∧
      ∀ rest, f.decodeMany list.length (bytes ++ rest) = some (list, rest) := by
  induction list with
  | nil => exact ⟨[], rfl, fun _ => rfl⟩
  | cons a list ih =>
    obtain ⟨bytes, henc, hdec⟩ := f.decode_encode a (h a List.mem_cons_self)
    obtain ⟨bytes', henc', hdec'⟩ := ih fun b hb => h b (List.mem_cons_of_mem _ hb)
    refine ⟨bytes ++ bytes', by rw [encodeAll, henc, henc']; rfl, fun rest => ?_⟩
    simp only [List.append_assoc, List.length_cons, decodeMany, hdec, hdec', Option.bind_eq_bind,
      Option.bind_some, Option.pure_def]

theorem decodeMany_eq_some {n : Nat} {bytes rest : List UInt8} {list : List α}
    (h : f.decodeMany n bytes = some (list, rest)) :
    list.length = n ∧ (∀ a ∈ list, f.Carries a) ∧
      ∀ more, f.decodeMany n (bytes ++ more) = some (list, rest ++ more) := by
  induction n generalizing bytes list with
  | zero =>
    obtain ⟨rfl, rfl⟩ := Prod.mk.inj (Option.some.inj h)
    exact ⟨rfl, fun _ ha => absurd ha List.not_mem_nil, fun _ => rfl⟩
  | succ n ih =>
    obtain ⟨⟨a, tail⟩, hf, h⟩ := Option.bind_eq_some_iff.1 h
    obtain ⟨⟨list', rest'⟩, hmany, h⟩ := Option.bind_eq_some_iff.1 h
    obtain ⟨rfl, rfl⟩ := Prod.mk.inj (Option.some.inj h)
    obtain ⟨hlength, hcarries, happend⟩ := ih hmany
    refine ⟨by rw [List.length_cons, hlength], ?_, fun more => ?_⟩
    · intro b hb
      rcases List.mem_cons.1 hb with rfl | hb
      · exact f.carries_decode _ _ _ hf
      · exact hcarries b hb
    · simp only [decodeMany, f.decode_append _ _ _ hf more, happend more, Option.bind_eq_bind,
        Option.bind_some, Option.pure_def]

/-- How long an array may be: it has a bound, and the bytes of its elements in memory have to be a
number. -/
def ArrayFits (maxsize elsize n : Nat) : Prop := n ≤ maxsize ∧ n ≤ (2 ^ 32 - 1) / elsize

instance (maxsize elsize n : Nat) : Decidable (ArrayFits maxsize elsize n) :=
  inferInstanceAs (Decidable (_ ∧ _))

theorem ArrayFits.lt {maxsize elsize n : Nat} (h : ArrayFits maxsize elsize n) : n < 2 ^ 32 := by
  have hle := Nat.div_le_self (2 ^ 32 - 1) elsize
  have hn := h.2
  omega

/-- What `xdr_array` reads. -/
def readArray (maxsize elsize : Nat) (bytes : List UInt8) : Option (List α × List UInt8) := do
  let (n, tail) ← readWord bytes
  if ArrayFits maxsize elsize n then f.decodeMany n tail else none

theorem readArray_eq_some {maxsize elsize : Nat} {bytes rest : List UInt8} {list : List α}
    (h : f.readArray maxsize elsize bytes = some (list, rest)) :
    ∃ n tail, readWord bytes = some (n, tail) ∧ ArrayFits maxsize elsize n ∧
      f.decodeMany n tail = some (list, rest) := by
  obtain ⟨⟨n, tail⟩, hword, h⟩ := Option.bind_eq_some_iff.1 h
  dsimp only at h
  split at h
  · next hfits => exact ⟨n, tail, hword, hfits, h⟩
  · cases h

theorem readArray_of {maxsize elsize n : Nat} {bytes tail : List UInt8}
    (hword : readWord bytes = some (n, tail)) (hfits : ArrayFits maxsize elsize n) :
    f.readArray maxsize elsize bytes = f.decodeMany n tail := by
  simp only [readArray, hword, Option.bind_eq_bind, Option.bind_some, if_pos hfits]

/-- `xdr_array`. -/
def array (maxsize elsize : Nat) : Xdr (List α) where
  Carries list := ArrayFits maxsize elsize list.length ∧ ∀ a ∈ list, f.Carries a
  encode list :=
    if ArrayFits maxsize elsize list.length then
      (f.encodeAll list).map (word list.length ++ ·)
    else none
  decode := f.readArray maxsize elsize
  decode_encode list hlist := by
    obtain ⟨bytes, henc, hdec⟩ := f.decodeMany_encodeAll hlist.2
    refine ⟨word list.length ++ bytes, by rw [if_pos hlist.1, henc]; rfl, fun rest => ?_⟩
    rw [List.append_assoc, f.readArray_of (readWord_word hlist.1.lt _) hlist.1, hdec]
  carries_decode bytes list rest h := by
    obtain ⟨n, tail, -, hfits, hmany⟩ := f.readArray_eq_some h
    obtain ⟨rfl, hcarries, -⟩ := f.decodeMany_eq_some hmany
    exact ⟨hfits, hcarries⟩
  decode_append bytes list rest h more := by
    obtain ⟨n, tail, hword, hfits, hmany⟩ := f.readArray_eq_some h
    rw [f.readArray_of ((readWord_eq_some hword).2 more) hfits,
      (f.decodeMany_eq_some hmany).2.2 more]

end Array

/-! ## Whole messages -/

section Messages

variable {f : Xdr α} {a : α} {bytes : List UInt8}

theorem decode_of_encode (ha : f.Carries a) (h : f.encode a = some bytes) (rest : List UInt8) :
    f.decode (bytes ++ rest) = some (a, rest) := by
  obtain ⟨bytes', henc, hdec⟩ := f.decode_encode a ha
  obtain rfl := Option.some.inj (h.symm.trans henc)
  exact hdec rest

/-- **A message that is cut short is refused.** -/
theorem decode_of_cut (ha : f.Carries a) (h : f.encode a = some bytes) {part : List UInt8}
    (hpart : part <+: bytes) (hne : part ≠ bytes) : f.decode part = none := by
  obtain ⟨more, rfl⟩ := hpart
  cases hdec : f.decode part with
  | none => rfl
  | some r =>
    have hwhole := decode_of_encode ha h []
    rw [List.append_nil, f.decode_append _ _ _ hdec more] at hwhole
    obtain ⟨-, hrest⟩ := Prod.mk.inj (Option.some.inj hwhole)
    exact absurd (by rw [(List.append_eq_nil_iff.1 hrest).2, List.append_nil]) hne

end Messages

end Xdr

end DistributedSystems.Support
