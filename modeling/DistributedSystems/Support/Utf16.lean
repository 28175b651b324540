import Mathlib.Data.List.Basic

/-!
# UTF-16

Strings of 16-bit code units, as some languages keep them. Any sequence of units is such a string;
one that does not come from text decodes with a question mark for each unit that is out of place.
Cutting a string can only put its last unit out of place (`take_encode`).
-/

namespace DistributedSystems.Support.Utf16

/-- The first unit of a pair. -/
def IsHigh (u : UInt16) : Prop := 0xD800 ≤ u.toNat ∧ u.toNat < 0xDC00

/-- The second unit of a pair. -/
def IsLow (u : UInt16) : Prop := 0xDC00 ≤ u.toNat ∧ u.toNat < 0xE000

instance : DecidablePred IsHigh := fun u =>
  inferInstanceAs (Decidable (0xD800 ≤ u.toNat ∧ u.toNat < 0xDC00))

instance : DecidablePred IsLow := fun u =>
  inferInstanceAs (Decidable (0xDC00 ≤ u.toNat ∧ u.toNat < 0xE000))

def encodeChar (c : Char) : List UInt16 :=
  let v := c.toNat
  if v < 0x10000 then [.ofNat v]
  else [.ofNat (0xD800 + (v - 0x10000) / 0x400), .ofNat (0xDC00 + (v - 0x10000) % 0x400)]

def encode (cs : List Char) : List UInt16 := cs.flatMap encodeChar

/-- A unit on its own. -/
def ofUnit (u : UInt16) : Char := if IsHigh u ∨ IsLow u then '?' else .ofNat u.toNat

def ofPair (u v : UInt16) : Char :=
  .ofNat (0x10000 + (u.toNat - 0xD800) * 0x400 + (v.toNat - 0xDC00))

def decode : List UInt16 → List Char
  | [] => []
  | [u] => [ofUnit u]
  | u :: v :: us =>
    if IsHigh u ∧ IsLow v then ofPair u v :: decode us else ofUnit u :: decode (v :: us)

@[simp] theorem encode_nil : encode [] = [] := rfl

@[simp] theorem encode_cons (c : Char) (cs : List Char) :
    encode (c :: cs) = encodeChar c ++ encode cs := by
  simp [encode]

/-- A character is one unit, or a pair. -/
theorem encodeChar_cases (c : Char) :
    (∃ u, encodeChar c = [u] ∧ ¬ IsHigh u ∧ ¬ IsLow u ∧ ofUnit u = c) ∨
      ∃ u v, encodeChar c = [u, v] ∧ IsHigh u ∧ IsLow v ∧ ofPair u v = c := by
  have hvalid := c.valid
  have hv : c.toNat < 0xD800 ∨ 0xDFFF < c.toNat ∧ c.toNat < 0x110000 := hvalid
  simp only [encodeChar]
  split
  · rename_i h
    have hu : (UInt16.ofNat c.toNat).toNat = c.toNat := by
      rw [UInt16.toNat_ofNat']; omega
    have hh : ¬ IsHigh (.ofNat c.toNat) := by rw [IsHigh, hu]; omega
    have hl : ¬ IsLow (.ofNat c.toNat) := by rw [IsLow, hu]; omega
    refine Or.inl ⟨_, rfl, hh, hl, ?_⟩
    rw [ofUnit, if_neg (by simp [hh, hl]), hu, Char.ofNat_toNat]
  · rename_i h
    have hu : (UInt16.ofNat (0xD800 + (c.toNat - 0x10000) / 0x400)).toNat =
        0xD800 + (c.toNat - 0x10000) / 0x400 := by
      rw [UInt16.toNat_ofNat']; omega
    have hl : (UInt16.ofNat (0xDC00 + (c.toNat - 0x10000) % 0x400)).toNat =
        0xDC00 + (c.toNat - 0x10000) % 0x400 := by
      rw [UInt16.toNat_ofNat']; omega
    refine Or.inr ⟨_, _, rfl, by rw [IsHigh, hu]; omega, by rw [IsLow, hl]; omega, ?_⟩
    have hsum : 0x10000 + (0xD800 + (c.toNat - 0x10000) / 0x400 - 0xD800) * 0x400 +
        (0xDC00 + (c.toNat - 0x10000) % 0x400 - 0xDC00) = c.toNat := by omega
    unfold ofPair
    rw [hu, hl, hsum, Char.ofNat_toNat]

theorem decode_cons_of_not_high {u : UInt16} (h : ¬ IsHigh u) (us : List UInt16) :
    decode (u :: us) = ofUnit u :: decode us := by
  cases us with
  | nil => rfl
  | cons v us => simp [decode, h]

theorem decode_encodeChar_append (c : Char) (us : List UInt16) :
    decode (encodeChar c ++ us) = c :: decode us := by
  rcases encodeChar_cases c with ⟨u, hu, hh, -, hc⟩ | ⟨u, v, huv, hh, hl, hc⟩
  · rw [hu, List.singleton_append, decode_cons_of_not_high hh, hc]
  · rw [huv]
    simp [decode, hh, hl, hc]

/-- Text decodes to itself in front of anything. -/
theorem decode_encode_append (cs : List Char) (us : List UInt16) :
    decode (encode cs ++ us) = cs ++ decode us := by
  induction cs with
  | nil => rfl
  | cons c cs ih =>
    rw [encode_cons, List.append_assoc, decode_encodeChar_append, ih, List.cons_append]

theorem decode_encode (cs : List Char) : decode (encode cs) = cs := by
  have h := decode_encode_append cs []
  simpa [decode] using h

/-- **Cut text** is text, or text and the first unit of a pair. -/
theorem take_encode (n : Nat) (cs : List Char) :
    ∃ k, (encode cs).take n = encode (cs.take k) ∨
      ∃ u, IsHigh u ∧ (encode cs).take n = encode (cs.take k) ++ [u] := by
  induction cs generalizing n with
  | nil => exact ⟨0, Or.inl (by simp)⟩
  | cons c cs ih =>
    cases n with
    | zero => exact ⟨0, Or.inl (by simp)⟩
    | succ n =>
      rw [encode_cons]
      rcases encodeChar_cases c with ⟨u, hu, -⟩ | ⟨u, v, huv, hh, -, -⟩
      · obtain ⟨k, hk⟩ := ih n
        refine ⟨k + 1, ?_⟩
        simpa [hu] using hk
      · cases n with
        | zero => exact ⟨0, Or.inr ⟨u, hh, by simp [huv]⟩⟩
        | succ n =>
          obtain ⟨k, hk⟩ := ih n
          refine ⟨k + 1, ?_⟩
          simpa [huv] using hk

/-- A cut text, decoded: a question mark stands for half a pair. -/
theorem decode_take_encode (n : Nat) (cs : List Char) :
    ∃ k, ((encode cs).take n = encode (cs.take k) ∧ decode ((encode cs).take n) = cs.take k) ∨
      ∃ u, (encode cs).take n = encode (cs.take k) ++ [u] ∧
        decode ((encode cs).take n) = cs.take k ++ ['?'] := by
  obtain ⟨k, h | ⟨u, hu, h⟩⟩ := take_encode n cs
  · exact ⟨k, Or.inl ⟨h, by rw [h, decode_encode]⟩⟩
  · refine ⟨k, Or.inr ⟨u, h, ?_⟩⟩
    rw [h, decode_encode_append]
    simp [decode, ofUnit, hu]

/-- UTF-8 is no shorter, counted in its own units. -/
theorem length_encode_le (cs : List Char) :
    (encode cs).length ≤ (cs.flatMap String.utf8EncodeChar).length := by
  induction cs with
  | nil => simp
  | cons c cs ih =>
    have hc : (encodeChar c).length ≤ (String.utf8EncodeChar c).length := by
      have hval : c.val.toNat = c.toNat := rfl
      simp only [encodeChar, String.utf8EncodeChar, hval]
      split_ifs <;> simp only [List.length_cons, List.length_nil]
      all_goals omega
    rw [encode_cons, List.flatMap_cons, List.length_append, List.length_append]
    omega

theorem length_encodeChar_ofPair {u v : UInt16} (hu : IsHigh u) (hv : IsLow v) :
    (encodeChar (ofPair u v)).length = 2 := by
  unfold IsHigh at hu
  unfold IsLow at hv
  have hvalid : Nat.isValidChar (0x10000 + (u.toNat - 0xD800) * 0x400 + (v.toNat - 0xDC00)) :=
    Or.inr (by omega)
  have hn : (ofPair u v).toNat = 0x10000 + (u.toNat - 0xD800) * 0x400 + (v.toNat - 0xDC00) := by
    unfold ofPair Char.ofNat
    rw [dif_pos hvalid]
    rfl
  simp only [encodeChar, hn]
  rw [if_neg (by omega)]
  rfl

/-- Any units decode to no less text than they are. -/
theorem length_le_encode_decode (us : List UInt16) : us.length ≤ (encode (decode us)).length := by
  have hpos : ∀ c, 1 ≤ (encodeChar c).length := by
    intro c
    simp only [encodeChar]
    split <;> simp
  induction us using decode.induct with
  | case1 => exact Nat.le_refl _
  | case2 u => simpa [decode] using hpos (ofUnit u)
  | case3 u v us h ih =>
    simp only [decode, h, and_self, if_true, encode_cons, List.length_append,
      length_encodeChar_ofPair h.1 h.2, List.length_cons]
    omega
  | case4 u v us h ih =>
    have hu := hpos (ofUnit u)
    simp only [decode, h, if_false, encode_cons, List.length_append, List.length_cons] at ih ⊢
    omega

/-- A unit that ends no pair is decoded on its own at the end. -/
theorem decode_snoc {w : UInt16} (hw : ¬ IsLow w) (us : List UInt16) :
    decode (us ++ [w]) = decode us ++ [ofUnit w] := by
  induction us using decode.induct with
  | case1 => rfl
  | case2 u => simp [decode, hw]
  | case3 u v us h ih => simp [decode, h, ih]
  | case4 u v us h ih =>
    simp only [List.cons_append] at ih ⊢
    simp [decode, h, ih]

end DistributedSystems.Support.Utf16
