import Mathlib.Data.List.Induction
import VerifiedLedger.Proofs.Bytes.Hex
import VerifiedLedger.Proofs.Bytes.Utf8
/-! # What is read as hexadecimal text

Reading takes the bytes of a text, in pairs. No byte of a character outside ASCII is a digit, so
that what is read is what the characters spell.
-/
namespace VerifiedLedger
namespace Hex
variable {c : Char} {b : UInt8} {chars : List Char} {bytes tail : List UInt8} {n position : ℕ}

section Characters

theorem toNat_lt_of_digitValue (h : digitValue b = some n) : b.toNat < 0x80 := by
  by_contra hlarge
  rw [digitValue, if_neg (by omega), if_neg (by omega), if_neg (by omega)] at h
  cases h

theorem le_of_encodeChar (h : Utf8.encodeChar c = b :: tail) (hlarge : 0x80 ≤ c.toNat) :
    0x80 ≤ b.toNat := by
  have hbound := Utf8.toNat_lt c
  rw [Utf8.encodeChar, if_neg (by omega)] at h
  split_ifs at h
  all_goals
    obtain ⟨rfl, -⟩ := List.cons.inj h
    rw [UInt8.toNat_ofNat']
    omega

/-- An ASCII byte begins no character but the one that it is. -/
theorem exists_ascii_of_encodeChars (h : Utf8.encodeChars chars = b :: tail)
    (hb : b.toNat < 0x80) :
    ∃ c rest, chars = c :: rest ∧ c.toNat = b.toNat ∧ Utf8.encodeChars rest = tail := by
  cases chars with
  | nil => cases h
  | cons c rest =>
    rw [Utf8.encodeChars, List.flatMap_cons] at h
    obtain ⟨first, more, hfirst⟩ := List.exists_cons_of_length_pos (Utf8.length_encodeChar_pos c)
    rw [hfirst, List.cons_append] at h
    obtain ⟨rfl, hrest⟩ := List.cons.inj h
    have hsmall : c.toNat < 0x80 := by
      by_contra hlarge
      exact absurd hb (Nat.not_lt.2 (le_of_encodeChar hfirst (Nat.not_lt.1 hlarge)))
    rw [Utf8.encodeChar, if_pos hsmall] at hfirst
    obtain ⟨rfl, rfl⟩ := List.cons.inj hfirst
    exact ⟨c, rest, rfl, (UInt8.toNat_ofNat_of_lt' (Nat.lt_trans hsmall (by decide))).symm, hrest⟩

theorem isDigitOf_of_digitValue (hc : c.toNat = b.toNat) (hb : digitValue b = some n) :
    IsDigitOf c n := by
  have hascii : ∀ k < 0x80, ∀ n ∈ digitValue (UInt8.ofNat k),
      n < 16 ∧ (Char.ofNat k = digit n ∨ Char.ofNat k = (digit n).toUpper) := by decide
  have hvalue : n ∈ digitValue (UInt8.ofNat b.toNat) := by rwa [UInt8.ofNat_toNat]
  have hdigit := hascii b.toNat (toNat_lt_of_digitValue hb) n hvalue
  rwa [← hc, Char.ofNat_toNat] at hdigit

theorem IsDigitOf.eq_iff (h : IsDigitOf c n) : digit n = c ↔ ¬c.isUpper := by
  have hletters : ∀ n < 16, ¬(digit n).isUpper ∧
      (digit n = (digit n).toUpper ∨ (digit n).toUpper.isUpper) := by decide
  obtain ⟨hn, rfl | rfl⟩ := h
  · simp [(hletters n hn).1]
  · rcases (hletters n hn).2 with hsame | hcapital
    · simp [← hsame, (hletters n hn).1]
    · refine ⟨fun hdigit => ?_, fun hsmall => absurd hcapital hsmall⟩
      rw [← hdigit]
      exact (hletters n hn).1

end Characters

namespace Spells

theorem cons_ofNat {c d : Char} {high low : ℕ} (hc : IsDigitOf c high) (hd : IsDigitOf d low)
    (h : Spells chars bytes) :
    Spells (c :: d :: chars) (UInt8.ofNat (16 * high + low) :: bytes) := by
  have hhigh := hc.1
  have hlow := hd.1
  have hvalue : (UInt8.ofNat (16 * high + low)).toNat = 16 * high + low := by
    rw [UInt8.toNat_ofNat']
    omega
  refine .cons ?_ ?_ h
  · rwa [hvalue, show (16 * high + low) / 16 = high by omega]
  · rwa [hvalue, show (16 * high + low) % 16 = low by omega]

theorem isDigit (h : Spells chars bytes) : ∀ c ∈ chars, ∃ n, IsDigitOf c n := by
  induction h with
  | nil => exact nofun
  | cons hhigh hlow _ ih =>
    rw [List.forall_mem_cons, List.forall_mem_cons]
    exact ⟨⟨_, hhigh⟩, ⟨_, hlow⟩, ih⟩

/-- Digits always spell something, if they come in pairs. -/
theorem exists_bytes (heven : chars.length % 2 = 0) (h : ∀ c ∈ chars, ∃ n, IsDigitOf c n) :
    ∃ bytes, Spells chars bytes := by
  induction chars using List.twoStepInduction with
  | nil => exact ⟨[], .nil⟩
  | singleton c => cases heven
  | cons_cons c d chars ih _ =>
    rw [List.forall_mem_cons, List.forall_mem_cons] at h
    obtain ⟨⟨high, hc⟩, ⟨low, hd⟩, hdigits⟩ := h
    rw [List.length_cons, List.length_cons] at heven
    obtain ⟨bytes, hbytes⟩ := ih (by omega) hdigits
    exact ⟨_, .cons_ofNat hc hd hbytes⟩

/-- The spelling that is written has small letters only. -/
theorem encodeChars_eq_iff (h : Spells chars bytes) :
    encodeChars bytes = chars ↔ ∀ c ∈ chars, ¬c.isUpper := by
  induction h with
  | nil => exact ⟨nofun, fun _ => rfl⟩
  | cons hhigh hlow _ ih =>
    rw [encodeChars, List.cons.injEq, List.cons.injEq, List.forall_mem_cons, List.forall_mem_cons,
      ih, hhigh.eq_iff, hlow.eq_iff]

end Spells

section Reading

/-- An even number of bytes is read in pairs up to the last one. -/
theorem pairs_of_decodePairs (heven : tail.length % 2 = 0)
    (h : decodePairs position tail = .ok bytes) :
    (tail = [] ∧ bytes = []) ∨ ∃ a b rest high low others, tail = a :: b :: rest ∧
      digitValue a = some high ∧ digitValue b = some low ∧
      decodePairs (position + 2) rest = .ok others ∧
      bytes = UInt8.ofNat (16 * high + low) :: others := by
  rcases tail with _ | ⟨a, _ | ⟨b, rest⟩⟩
  · cases h
    exact .inl ⟨rfl, rfl⟩
  · cases heven
  · rw [decodePairs] at h
    cases ha : digitValue a with
    | none =>
      rw [ha] at h
      cases h
    | some high =>
      cases hb : digitValue b with
      | none =>
        rw [ha, hb] at h
        cases h
      | some low =>
        simp only [ha, hb, bind_eq_ok_iff, pure_eq_ok_iff] at h
        obtain ⟨others, hothers, rfl⟩ := h
        exact .inr ⟨a, b, rest, high, low, others, rfl, ha, hb, hothers, rfl⟩

theorem length_of_decodePairs (heven : tail.length % 2 = 0)
    (h : decodePairs position tail = .ok bytes) : tail.length = 2 * bytes.length := by
  induction bytes generalizing tail position with
  | nil =>
    obtain ⟨rfl, -⟩ | ⟨a, b, rest, high, low, others, -, -, -, -, hbytes⟩ :=
      pairs_of_decodePairs heven h
    · rfl
    · cases hbytes
  | cons byte bytes ih =>
    obtain ⟨-, hbytes⟩ | ⟨a, b, rest, high, low, others, rfl, -, -, hrest, hbytes⟩ :=
      pairs_of_decodePairs heven h
    · cases hbytes
    · obtain ⟨-, rfl⟩ := List.cons.inj hbytes
      rw [List.length_cons, List.length_cons] at heven ⊢
      rw [ih (by omega) hrest, List.length_cons, Nat.mul_succ]

theorem decode_eq_ok_iff :
    decode tail = .ok bytes ↔ tail.length % 2 = 0 ∧ decodePairs 0 tail = .ok bytes := by
  rw [decode, ite_error_eq_ok_iff, ← ne_eq, Nat.mod_two_ne_one]

/-- At most one `0x` is left out. -/
theorem dropPrefix_cases (bytes : List UInt8) :
    dropPrefix bytes = bytes ∨ ∃ rest, bytes = 48 :: 120 :: rest ∧ dropPrefix bytes = rest := by
  unfold dropPrefix
  split
  · exact .inr ⟨_, rfl, rfl⟩
  · exact .inl rfl

theorem exists_digit_of_encodeChars (h : Utf8.encodeChars chars = b :: tail)
    (hb : digitValue b = some n) :
    ∃ c rest, chars = c :: rest ∧ IsDigitOf c n ∧ Utf8.encodeChars rest = tail := by
  obtain ⟨c, rest, rfl, hc, hrest⟩ := exists_ascii_of_encodeChars h (toNat_lt_of_digitValue hb)
  exact ⟨c, rest, rfl, isDigitOf_of_digitValue hc hb, hrest⟩

theorem spells_of_decodePairs (heven : (Utf8.encodeChars chars).length % 2 = 0)
    (h : decodePairs position (Utf8.encodeChars chars) = .ok bytes) : Spells chars bytes := by
  induction bytes generalizing chars position with
  | nil =>
    obtain ⟨hnil, -⟩ | ⟨a, b, rest, high, low, others, -, -, -, -, hbytes⟩ :=
      pairs_of_decodePairs heven h
    · rw [Utf8.encodeChars_eq_nil_iff.1 hnil]
      exact .nil
    · cases hbytes
  | cons byte bytes ih =>
    obtain ⟨-, hbytes⟩ | ⟨a, b, rest, high, low, others, htext, ha, hb, hrest, hbytes⟩ :=
      pairs_of_decodePairs heven h
    · cases hbytes
    · obtain ⟨rfl, rfl⟩ := List.cons.inj hbytes
      obtain ⟨c, more, rfl, hc, hmore⟩ := exists_digit_of_encodeChars htext ha
      obtain ⟨d, chars, rfl, hd, rfl⟩ := exists_digit_of_encodeChars hmore hb
      rw [htext, List.length_cons, List.length_cons] at heven
      exact .cons_ofNat hc hd (ih (by omega) hrest)

end Reading
end Hex

namespace Digest
variable {text : String} {bytes : List UInt8} {chars : List Char} {d : Digest}

theorem ofBytes_eq_ok_iff : ofBytes bytes = .ok d ↔ bytes = d.toList := by
  rw [ofBytes]
  cases hof : FixedBytes.ofList? bytes with
  | none =>
    constructor
    · intro h
      cases h
    · intro h
      cases hof.symm.trans (FixedBytes.ofList?_eq_some_iff (a := d.bytes).2 h)
  | some fixed =>
    rw [FixedBytes.ofList?_eq_some_iff.1 hof, Except.ok.injEq, ← toList_inj]
    exact Iff.rfl

theorem ofHex_eq_ok_iff :
    ofHex text = .ok d ↔ Hex.decode (Hex.dropPrefix (Utf8.encode text)) = .ok d.toList := by
  rw [ofHex]
  cases Hex.decode (Hex.dropPrefix (Utf8.encode text)) with
  | error fault => simp
  | ok bytes => rw [ofBytes_eq_ok_iff, Except.ok.injEq]

/-- A text of 64 bytes is read as the digest that its characters spell. If it begins with `0x`,
there are too few digits left. -/
theorem ofHex_ofList_eq_ok_iff (hlength : (Utf8.encodeChars chars).length = 64) :
    ofHex (String.ofList chars) = .ok d ↔ Hex.Spells chars d.toList := by
  have hprefix := Hex.dropPrefix_cases (Utf8.encodeChars chars)
  rw [ofHex_eq_ok_iff, Utf8.encode, String.toList_ofList]
  constructor
  · intro h
    obtain ⟨heven, hpairs⟩ := Hex.decode_eq_ok_iff.1 h
    rcases hprefix with hwhole | ⟨rest, hrest, hdrop⟩
    · rw [hwhole] at heven hpairs
      exact Hex.spells_of_decodePairs heven hpairs
    · rw [hdrop] at heven hpairs
      have hshort := Hex.length_of_decodePairs heven hpairs
      rw [hrest, List.length_cons, List.length_cons] at hlength
      rw [d.length_toList] at hshort
      omega
  · exact fun h => h.decode_eq

/-- Exactly 64 digits, of either case. -/
structure IsSpelled (chars : List Char) : Prop where
  length : chars.length = 64
  isDigit : ∀ c ∈ chars, ∃ n, Hex.IsDigitOf c n

theorem exists_spells_iff : (∃ d : Digest, Hex.Spells chars d.toList) ↔ IsSpelled chars := by
  constructor
  · rintro ⟨d, h⟩
    exact ⟨h.length_eq.trans (congrArg (2 * ·) d.length_toList), h.isDigit⟩
  · rintro ⟨hlength, hdigits⟩
    obtain ⟨bytes, h⟩ := Hex.Spells.exists_bytes (by rw [hlength]) hdigits
    have hbytes := h.length_eq
    exact ⟨⟨⟨bytes, by omega⟩⟩, h⟩

end Digest
end VerifiedLedger
