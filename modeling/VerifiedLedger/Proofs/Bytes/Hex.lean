import Mathlib.Data.Nat.Notation
import VerifiedLedger.Hash.Digest
import VerifiedLedger.Proofs.Checks
/-! # Hexadecimal text and back

A text spells bytes if it has two digits for each of them, with small letters or capitals, and the
bytes are read back from every such text. No digit is the letter of the `0x` that a text may begin
with, so nothing is taken off it.
-/
namespace VerifiedLedger
namespace Hex
variable {c : Char} {chars : List Char} {bytes : List UInt8} {n : ℕ}

/-- A digit of that value, as a small letter or as a capital where it is a letter. -/
def IsDigitOf (c : Char) (n : ℕ) : Prop := n < 16 ∧ (c = digit n ∨ c = (digit n).toUpper)

/-- The text has two digits for each byte. -/
inductive Spells : List Char → List UInt8 → Prop
  | nil : Spells [] []
  | cons {high low : Char} {b : UInt8} {chars : List Char} {bytes : List UInt8}
      (hhigh : IsDigitOf high (b.toNat / 16)) (hlow : IsDigitOf low (b.toNat % 16))
      (h : Spells chars bytes) : Spells (high :: low :: chars) (b :: bytes)

theorem isDigitOf_digit (h : n < 16) : IsDigitOf (digit n) n := ⟨h, .inl rfl⟩

theorem digitValue_of_isDigitOf (h : IsDigitOf c n) :
    ∃ b, Utf8.encodeChar c = [b] ∧ digitValue b = some n := by
  have hboth : ∀ n < 16, digitValue (UInt8.ofNat (digit n).toNat) = some n ∧
      digitValue (UInt8.ofNat (digit n).toUpper.toNat) = some n ∧
      Utf8.encodeChar (digit n) = [UInt8.ofNat (digit n).toNat] ∧
      Utf8.encodeChar (digit n).toUpper = [UInt8.ofNat (digit n).toUpper.toNat] := by decide
  obtain ⟨hn, hc⟩ := h
  obtain ⟨hsmall, hcapital, hsmall', hcapital'⟩ := hboth n hn
  rcases hc with rfl | rfl
  · exact ⟨_, hsmall', hsmall⟩
  · exact ⟨_, hcapital', hcapital⟩

/-- Each digit is one byte of the text. -/
theorem exists_encodeChars_cons {high low : Char} {b : UInt8}
    (hhigh : IsDigitOf high (b.toNat / 16)) (hlow : IsDigitOf low (b.toNat % 16))
    (chars : List Char) :
    ∃ first second, digitValue first = some (b.toNat / 16) ∧
      digitValue second = some (b.toNat % 16) ∧
      Utf8.encodeChars (high :: low :: chars) = first :: second :: Utf8.encodeChars chars := by
  obtain ⟨first, hfirst, hfirstValue⟩ := digitValue_of_isDigitOf hhigh
  obtain ⟨second, hsecond, hsecondValue⟩ := digitValue_of_isDigitOf hlow
  refine ⟨first, second, hfirstValue, hsecondValue, ?_⟩
  rw [Utf8.encodeChars, List.flatMap_cons, List.flatMap_cons, hfirst, hsecond]
  rfl

theorem spells_encodeChars (bytes : List UInt8) : Spells (encodeChars bytes) bytes := by
  induction bytes with
  | nil => exact .nil
  | cons b bytes ih =>
    have hhigh : b.toNat / 16 < 16 := Nat.div_lt_of_lt_mul b.toNat_lt
    have hlow : b.toNat % 16 < 16 := Nat.mod_lt _ (by decide)
    exact .cons (isDigitOf_digit hhigh) (isDigitOf_digit hlow) ih

namespace Spells

theorem length_eq (h : Spells chars bytes) : chars.length = 2 * bytes.length := by
  induction h with
  | nil => rfl
  | cons _ _ _ ih => rw [List.length_cons, List.length_cons, List.length_cons, ih, Nat.mul_succ]

theorem length_encodeChars (h : Spells chars bytes) :
    (Utf8.encodeChars chars).length = 2 * bytes.length := by
  induction h with
  | nil => rfl
  | cons hhigh hlow _ ih =>
    obtain ⟨first, second, -, -, htext⟩ := exists_encodeChars_cons hhigh hlow _
    rw [htext, List.length_cons, List.length_cons, ih, List.length_cons, Nat.mul_succ]

theorem dropPrefix_eq (h : Spells chars bytes) :
    dropPrefix (Utf8.encodeChars chars) = Utf8.encodeChars chars := by
  cases h with
  | nil => rfl
  | cons hhigh hlow _ =>
    obtain ⟨first, second, -, hvalue, htext⟩ := exists_encodeChars_cons hhigh hlow _
    rw [htext]
    unfold dropPrefix
    split
    · rename_i heq
      obtain ⟨-, hx⟩ := List.cons.inj heq
      obtain ⟨rfl, -⟩ := List.cons.inj hx
      cases hvalue
    · rfl

theorem decodePairs_eq (h : Spells chars bytes) (position : ℕ) :
    decodePairs position (Utf8.encodeChars chars) = .ok bytes := by
  induction h generalizing position with
  | nil => rfl
  | @cons high low b chars bytes hhigh hlow _ ih =>
    obtain ⟨first, second, hfirst, hsecond, htext⟩ := exists_encodeChars_cons hhigh hlow chars
    have hvalue : UInt8.ofNat (16 * (b.toNat / 16) + b.toNat % 16) = b := by
      rw [Nat.div_add_mod, UInt8.ofNat_toNat]
    simp only [htext, decodePairs, hfirst, hsecond, ih, hvalue]
    rfl

/-- Bytes are read back from every spelling, as it is read where it may begin with `0x`. -/
theorem decode_eq (h : Spells chars bytes) :
    decode (dropPrefix (Utf8.encodeChars chars)) = .ok bytes := by
  have heven : (Utf8.encodeChars chars).length % 2 ≠ 1 := by
    rw [h.length_encodeChars]
    omega
  rw [h.dropPrefix_eq, decode, if_neg heven, h.decodePairs_eq]

end Spells

theorem utf8_encode (bytes : List UInt8) :
    Utf8.encode (encode bytes) = Utf8.encodeChars (encodeChars bytes) := by
  rw [Utf8.encode, encode, String.toList_ofList]

theorem length_utf8_encode (bytes : List UInt8) :
    (Utf8.encode (encode bytes)).length = 2 * bytes.length := by
  rw [utf8_encode, (spells_encodeChars bytes).length_encodeChars]

theorem decode_encode (bytes : List UInt8) :
    decode (dropPrefix (Utf8.encode (encode bytes))) = .ok bytes := by
  rw [utf8_encode, (spells_encodeChars bytes).decode_eq]

end Hex

theorem Digest.ofHex_toHex (d : Digest) : Digest.ofHex d.toHex = .ok d := by
  have hof : FixedBytes.ofList? d.toList = some d.bytes := FixedBytes.ofList?_toList d.bytes
  rw [Digest.ofHex, Digest.toHex, Hex.decode_encode]
  simp only [Digest.ofBytes, hof]

end VerifiedLedger
