import DistributedSystems.Lab.ServerC.PeerToPeer
import DistributedSystems.Support.TextLines
import Mathlib.Algebra.Group.Int.Defs
import Mathlib.Algebra.Group.Nat.Defs
import Mathlib.Data.List.DropRight
import DistributedSystems.Support.Utf8

/-!
# Java streams

What the client uses of `java.io`: the characters of a byte stream under the default charset, the
integers of `DataInputStream` and `DataOutputStream`, and `String.trim`. Lines are read as in
`Support.TextLines`.
-/

namespace DistributedSystems.Lab

open Fs Support

/-- A charset: it reads back what it writes of the characters that it has. -/
structure Charset where
  encode : List Char → Bytes
  decode : Bytes → List Char
  Carries : Char → Prop
  carries_ascii : ∀ c : Char, c.toNat < 0x80 → Carries c
  decode_encode : ∀ cs, (∀ c ∈ cs, Carries c) → decode (encode cs) = cs

/-- The default charset of recent versions. -/
def Charset.utf8 : Charset where
  encode := Utf8.encode
  decode := Utf8.decode
  Carries _ := True
  carries_ascii _ _ := trivial
  decode_encode cs _ := Utf8.decode_encode cs

/-- Different texts have different bytes. -/
theorem Charset.encode_inj (C : Charset) {cs ds : List Char} (hcs : ∀ c ∈ cs, C.Carries c)
    (hds : ∀ c ∈ ds, C.Carries c) : C.encode cs = C.encode ds ↔ cs = ds := by
  constructor
  · intro h
    rw [← C.decode_encode cs hcs, h, C.decode_encode ds hds]
  · intro h
    rw [h]

/-- What `BufferedWriter.newLine` writes. -/
def lineSeparator : List Char := ['\n']

/-- `writeInt`: the same four bytes that `htonl` gives. -/
def writeInt (n : Int) : Bytes := htonl n

/-- `readInt`: four bytes as a signed number, unless the stream ends before. -/
def readInt : Bytes → Option (Int × Bytes)
  | b₃ :: b₂ :: b₁ :: b₀ :: rest =>
    let w := ((b₃.toNat * 256 + b₂.toNat) * 256 + b₁.toNat) * 256 + b₀.toNat
    some (if w < 2 ^ 31 then (w : Int) else (w : Int) - 2 ^ 32, rest)
  | _ => none

/-- The number that is read where `n` was written: `n` modulo `2^32`, as a signed number. -/
def asInt (n : Int) : Int :=
  if n % 2 ^ 32 < 2 ^ 31 then n % 2 ^ 32 else n % 2 ^ 32 - 2 ^ 32

theorem asInt_eq {n : Int} (h : -2 ^ 31 ≤ n ∧ n < 2 ^ 31) : asInt n = n := by
  unfold asInt
  split <;> omega

theorem lt_of_asInt {n : Nat} (h : n = (asInt n).toNat) : n < 2 ^ 31 := by
  unfold asInt at h
  split at h <;> omega

theorem readInt_htonl (n : Int) (rest : Bytes) :
    readInt (htonl n ++ rest) = some (asInt n, rest) := by
  obtain ⟨w, hw⟩ : ∃ w : Nat, n % 4294967296 = w := ⟨(n % 4294967296).toNat, by omega⟩
  have hlt : w < 2 ^ 32 := by omega
  have hbyte : ∀ k, (UInt8.ofNat (k % 256)).toNat = k % 256 := fun k =>
    Utf8.toNat_ofNat_byte (Nat.mod_lt k (by decide))
  have hsum : ((w / 16777216 % 256 * 256 + w / 65536 % 256) * 256 + w / 256 % 256) * 256 + w % 256 =
      w := by omega
  unfold htonl
  simp only [hw, Int.toNat_natCast, List.cons_append, List.nil_append, readInt, hbyte, hsum]
  have hmod : n % 2 ^ 32 = w := hw
  have hsigned : (if w < 2 ^ 31 then (w : Int) else (w : Int) - 2 ^ 32) = asInt n := by
    unfold asInt
    rw [hmod]
    split <;> split <;> omega
  rw [hsigned]

/-! ## Trimming -/

/-- A character that `trim` takes away at an end. -/
def blank (c : Char) : Bool := c.toNat ≤ 0x20

/-- `String.trim`. -/
def trim (s : List Char) : List Char := (s.dropWhile blank).rdropWhile blank

/-- Neither end can be trimmed. -/
def Trimmed (s : List Char) : Prop :=
  (∀ c ∈ s.head?, ¬ blank c) ∧ ∀ c ∈ s.getLast?, ¬ blank c

theorem trimmed_trim (s : List Char) : Trimmed (trim s) := by
  have hpre : trim s <+: s.dropWhile blank := List.rdropWhile_prefix blank _
  constructor
  · intro c hc
    obtain ⟨rest, hrest⟩ := hpre
    have hhead := List.head?_dropWhile_not blank s
    cases htrim : trim s with
    | nil => rw [htrim] at hc; cases hc
    | cons d ds =>
      rw [htrim] at hc hrest
      obtain rfl : d = c := Option.some.inj hc
      rw [← hrest] at hhead
      simpa using hhead
  · intro c hc
    obtain ⟨hne, rfl⟩ := List.mem_getLast?_eq_getLast hc
    exact List.rdropWhile_last_not blank _ hne

theorem trim_snoc {s : List Char} (h : Trimmed s) {c : Char} (hc : blank c) :
    trim (s ++ [c]) = s := by
  unfold trim
  cases s with
  | nil =>
    rw [List.nil_append, List.dropWhile_cons_of_pos hc]
    rfl
  | cons d ds =>
    have hd : ¬ blank d := h.1 d rfl
    rw [List.cons_append, List.dropWhile_cons_of_neg hd, ← List.cons_append,
      List.rdropWhile_concat_pos blank (d :: ds) c hc, List.rdropWhile_eq_self_iff]
    intro hne
    exact h.2 _ (List.getLast?_eq_some_getLast hne)

end DistributedSystems.Lab
