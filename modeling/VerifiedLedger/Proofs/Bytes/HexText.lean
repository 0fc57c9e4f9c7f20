import VerifiedLedger.Ledger.Address
import VerifiedLedger.Proofs.Bytes.HexSpelling
/-! # Every hexadecimal text

What becomes of any text that is read as 32 bytes. Digits are counted and found by the bytes of the
text, where a character outside ASCII has several. Digests and addresses have a reader each, and
the two take the same texts and find the same faults.
-/
namespace VerifiedLedger
namespace Hex
variable {ε α : Type} {c : Char} {chars : List Char} {b : UInt8} {n position : ℕ}
  {digits before after tail bytes : List UInt8} {fault : Fault}

/-- The characters after one leading `0x`, if there is one. -/
def afterPrefix : List Char → List Char
  | '0' :: 'x' :: rest => rest
  | chars => chars

/-- The digits of either case, one byte each. -/
def digitBytes : List UInt8 := Utf8.encode "0123456789abcdefABCDEF"

section Characters

/-- The prefix may be taken off the characters or off their bytes. -/
theorem dropPrefix_encodeChars (chars : List Char) :
    dropPrefix (Utf8.encodeChars chars) = Utf8.encodeChars (afterPrefix chars) := by
  unfold afterPrefix
  split
  · rfl
  · next hnone =>
    rcases dropPrefix_cases (Utf8.encodeChars chars) with hwhole | ⟨rest, hrest, -⟩
    · exact hwhole
    · obtain ⟨c, others, rfl, hc, hothers⟩ := exists_ascii_of_encodeChars hrest (by decide)
      obtain ⟨d, more, rfl, hd, -⟩ := exists_ascii_of_encodeChars hothers (by decide)
      obtain rfl : c = '0' := Char.toNat_inj.1 hc
      obtain rfl : d = 'x' := Char.toNat_inj.1 hd
      exact absurd rfl (hnone more)

theorem IsDigitOf.toLower_eq (h : IsDigitOf c n) : c.toLower = digit n := by
  have hcases : ∀ n < 16, (digit n).toLower = digit n ∧ (digit n).toUpper.toLower = digit n := by
    decide
  obtain ⟨hn, rfl | rfl⟩ := h
  · exact (hcases n hn).1
  · exact (hcases n hn).2

theorem Spells.map_toLower_eq (h : Spells chars bytes) :
    chars.map Char.toLower = encodeChars bytes := by
  induction h with
  | nil => rfl
  | cons hhigh hlow _ ih =>
    rw [List.map_cons, List.map_cons, hhigh.toLower_eq, hlow.toLower_eq, ih, encodeChars]

end Characters

section Faults

theorem digitValue_eq_none_iff : digitValue b = none ↔ b ∉ digitBytes := by
  have hbytes : ∀ k < 256, digitValue (UInt8.ofNat k) = none ↔ UInt8.ofNat k ∉ digitBytes := by
    decide +kernel
  have hb := hbytes b.toNat b.toNat_lt
  rwa [UInt8.ofNat_toNat] at hb

theorem exists_digitValue (h : b ∈ digitBytes) : ∃ n, digitValue b = some n := by
  rw [← Option.ne_none_iff_exists', ne_eq, digitValue_eq_none_iff]
  exact not_not_intro h

theorem exists_decodePairs (heven : digits.length % 2 = 0) (h : ∀ b ∈ digits, b ∈ digitBytes)
    (position : ℕ) : ∃ bytes, decodePairs position digits = .ok bytes := by
  induction digits using List.twoStepInduction generalizing position with
  | nil => exact ⟨[], rfl⟩
  | singleton b => cases heven
  | cons_cons a b digits ih _ =>
    rw [List.forall_mem_cons, List.forall_mem_cons] at h
    obtain ⟨high, ha⟩ := exists_digitValue h.1
    obtain ⟨low, hb⟩ := exists_digitValue h.2.1
    rw [List.length_cons, List.length_cons] at heven
    obtain ⟨bytes, hbytes⟩ := ih (by omega) h.2.2 (position + 2)
    refine ⟨UInt8.ofNat (16 * high + low) :: bytes, ?_⟩
    rw [decodePairs, ha, hb]
    simp only [hbytes, ok_bind]
    rfl

/-- Digits are read in pairs up to the pair of the first byte that is none. -/
theorem decodePairs_of_bad (hbefore : ∀ a ∈ before, a ∈ digitBytes) (hb : b ∉ digitBytes)
    (heven : (before ++ b :: after).length % 2 = 0) (position : ℕ) :
    decodePairs position (before ++ b :: after) =
      .error (.badCharacter b (position + before.length)) := by
  have hbad := digitValue_eq_none_iff.2 hb
  induction before using List.twoStepInduction generalizing position with
  | nil =>
    cases after with
    | nil => cases heven
    | cons c after =>
      rw [List.nil_append, decodePairs, hbad]
      rfl
  | singleton a =>
    obtain ⟨high, ha⟩ := exists_digitValue (hbefore a List.mem_cons_self)
    rw [List.singleton_append, decodePairs, ha, hbad]
    rfl
  | cons_cons a a' before ih _ =>
    rw [List.forall_mem_cons, List.forall_mem_cons] at hbefore
    obtain ⟨high, ha⟩ := exists_digitValue hbefore.1
    obtain ⟨low, ha'⟩ := exists_digitValue hbefore.2.1
    rw [List.cons_append, List.cons_append, List.length_cons, List.length_cons] at heven
    rw [List.cons_append, List.cons_append, decodePairs, ha, ha']
    simp only [ih hbefore.2.2 (by omega) (position + 2)]
    rw [List.length_cons, List.length_cons, show position + 2 + before.length =
      position + (before.length + 1 + 1) by omega]
    rfl

/-- Either all bytes are digits or one of them is the first that is none. -/
theorem digits_or_first_bad (digits : List UInt8) :
    (∀ b ∈ digits, b ∈ digitBytes) ∨ ∃ before b after, digits = before ++ b :: after ∧
      (∀ a ∈ before, a ∈ digitBytes) ∧ b ∉ digitBytes := by
  induction digits with
  | nil => exact .inl nofun
  | cons b digits ih =>
    by_cases hb : b ∈ digitBytes
    · rcases ih with hdigits | ⟨before, bad, after, rfl, hbefore, hbad⟩
      · exact .inl (List.forall_mem_cons.2 ⟨hb, hdigits⟩)
      · exact .inr ⟨b :: before, bad, after, rfl, List.forall_mem_cons.2 ⟨hb, hbefore⟩, hbad⟩
    · exact .inr ⟨[], b, digits, rfl, nofun, hb⟩

theorem decode_of_odd (h : digits.length % 2 = 1) : decode digits = .error .oddLength := if_pos h

theorem decode_of_bad (hbefore : ∀ a ∈ before, a ∈ digitBytes) (hb : b ∉ digitBytes)
    (heven : (before ++ b :: after).length % 2 = 0) :
    decode (before ++ b :: after) = .error (.badCharacter b before.length) := by
  rw [decode, if_neg (by omega), decodePairs_of_bad hbefore hb heven, Nat.zero_add]

theorem exists_decode (heven : digits.length % 2 = 0) (h : ∀ b ∈ digits, b ∈ digitBytes) :
    ∃ bytes, decode digits = .ok bytes ∧ digits.length = 2 * bytes.length := by
  obtain ⟨bytes, hbytes⟩ := exists_decodePairs heven h 0
  exact ⟨bytes, decode_eq_ok_iff.2 ⟨heven, hbytes⟩, length_of_decodePairs heven hbytes⟩

end Faults

/-- The faults of bytes that are not the digits of 32 bytes; each presumes that there is none of the
kinds before it. -/
inductive Misspelled (badHex : Fault → ε) (wrongLength : ℕ → ε) (digits : List UInt8) : ε → Prop
  | oddLength (hodd : digits.length % 2 = 1) :
      Misspelled badHex wrongLength digits (badHex .oddLength)
  | badCharacter (before after : List UInt8) (b : UInt8) (heven : digits.length % 2 = 0)
      (hsplit : digits = before ++ b :: after) (hbefore : ∀ a ∈ before, a ∈ digitBytes)
      (hb : b ∉ digitBytes) :
      Misspelled badHex wrongLength digits (badHex (.badCharacter b before.length))
  | wrongLength (got : ℕ) (hdigits : ∀ b ∈ digits, b ∈ digitBytes)
      (hlength : digits.length = 2 * got) (hgot : got ≠ 32) :
      Misspelled badHex wrongLength digits (wrongLength got)

/-- How a text is read as 32 bytes. -/
structure ReadByDigits (ofHex : String → Except ε α) (toHex : α → String)
    (toList : α → List UInt8) (badHex : Fault → ε) (wrongLength : ℕ → ε) (text : String) :
    Prop where
  accepted_iff : (∃ a, ofHex text = .ok a) ↔ Digest.IsSpelled (afterPrefix text.toList)
  spells (a : α) (h : ofHex text = .ok a) : Spells (afterPrefix text.toList) (toList a)
  toHex_eq (a : α) (h : ofHex text = .ok a) :
    toHex a = String.ofList ((afterPrefix text.toList).map Char.toLower)
  ofHex_toHex (a : α) (h : ofHex text = .ok a) : ofHex (toHex a) = .ok a
  refused_iff (e : ε) : ofHex text = .error e ↔
    Misspelled badHex wrongLength (Utf8.encodeChars (afterPrefix text.toList)) e

/-- A reader decodes what follows the prefix, and takes 32 bytes for a value. -/
structure Takes32 (ofHex : String → Except ε α) (toHex : α → String) (toList : α → List UInt8)
    (badHex : Fault → ε) (wrongLength : ℕ → ε) (ofBytes : List UInt8 → Except ε α) : Prop where
  ofHex_eq (text : String) : ofHex text =
    match decode (dropPrefix (Utf8.encode text)) with
    | .ok bytes => ofBytes bytes
    | .error fault => .error (badHex fault)
  toHex_eq (a : α) : toHex a = encode (toList a)
  ofBytes_toList (a : α) : ofBytes (toList a) = .ok a
  length_toList (a : α) : (toList a).length = 32
  ofBytes_answers (bytes : List UInt8) :
    (∃ a, bytes = toList a) ∨
      bytes.length ≠ 32 ∧ ofBytes bytes = .error (wrongLength bytes.length)

namespace Takes32
variable {ofBytes : List UInt8 → Except ε α} {ofHex : String → Except ε α} {toHex : α → String}
  {toList : α → List UInt8} {badHex : Fault → ε} {wrongLength : ℕ → ε} {text : String} {a : α}
  {e : ε}
variable (h : Takes32 ofHex toHex toList badHex wrongLength ofBytes)
include h

theorem ofHex_of_ok (hbytes : decode (Utf8.encodeChars (afterPrefix text.toList)) = .ok bytes) :
    ofHex text = ofBytes bytes := by
  rw [h.ofHex_eq, Utf8.encode, dropPrefix_encodeChars, hbytes]

theorem ofHex_of_error
    (hfault : decode (Utf8.encodeChars (afterPrefix text.toList)) = .error fault) :
    ofHex text = .error (badHex fault) := by
  rw [h.ofHex_eq, Utf8.encode, dropPrefix_encodeChars, hfault]

theorem ofHex_eq_ok_iff : ofHex text = .ok a ↔ Spells (afterPrefix text.toList) (toList a) := by
  constructor
  · intro hread
    cases hdecode : decode (Utf8.encodeChars (afterPrefix text.toList)) with
    | error fault =>
      rw [h.ofHex_of_error hdecode] at hread
      cases hread
    | ok bytes =>
      rw [h.ofHex_of_ok hdecode] at hread
      obtain ⟨heven, hpairs⟩ := decode_eq_ok_iff.1 hdecode
      rcases h.ofBytes_answers bytes with ⟨a', rfl⟩ | ⟨-, hrefused⟩
      · rw [h.ofBytes_toList] at hread
        cases hread
        exact spells_of_decodePairs heven hpairs
      · rw [hrefused] at hread
        cases hread
  · intro hspells
    have hdecode := hspells.decode_eq
    rw [hspells.dropPrefix_eq] at hdecode
    rw [h.ofHex_of_ok hdecode, h.ofBytes_toList]

theorem exists_ofHex_iff :
    (∃ a, ofHex text = .ok a) ↔ Digest.IsSpelled (afterPrefix text.toList) := by
  simp only [h.ofHex_eq_ok_iff, ← Digest.exists_spells_iff]
  constructor
  · rintro ⟨a, hspells⟩
    exact ⟨⟨⟨toList a, h.length_toList a⟩⟩, hspells⟩
  · rintro ⟨d, hspells⟩
    rcases h.ofBytes_answers d.toList with ⟨a, ha⟩ | ⟨hwrong, -⟩
    · exact ⟨a, ha ▸ hspells⟩
    · exact absurd d.length_toList hwrong

theorem ofHex_of_misspelled
    (hfault : Misspelled badHex wrongLength (Utf8.encodeChars (afterPrefix text.toList)) e) :
    ofHex text = .error e := by
  cases hfault with
  | oddLength hodd => exact h.ofHex_of_error (decode_of_odd hodd)
  | badCharacter before after b heven hsplit hbefore hb =>
    rw [hsplit] at heven
    exact h.ofHex_of_error (hsplit ▸ decode_of_bad hbefore hb heven)
  | wrongLength got hdigits hlength hgot =>
    obtain ⟨bytes, hdecode, hbytes⟩ := exists_decode (by omega) hdigits
    obtain rfl : got = bytes.length := by omega
    rw [h.ofHex_of_ok hdecode]
    rcases h.ofBytes_answers bytes with ⟨a, rfl⟩ | ⟨-, hrefused⟩
    · exact absurd (h.length_toList a) hgot
    · exact hrefused

theorem misspelled_of_ofHex (hread : ofHex text = .error e) :
    Misspelled badHex wrongLength (Utf8.encodeChars (afterPrefix text.toList)) e := by
  -- The fault that there is decides what is answered.
  suffices hfault : ∃ e',
      Misspelled badHex wrongLength (Utf8.encodeChars (afterPrefix text.toList)) e' by
    obtain ⟨e', hfault⟩ := hfault
    cases hread.symm.trans (h.ofHex_of_misspelled hfault)
    exact hfault
  rcases Nat.mod_two_eq_zero_or_one (Utf8.encodeChars (afterPrefix text.toList)).length with
    heven | hodd
  · rcases digits_or_first_bad (Utf8.encodeChars (afterPrefix text.toList)) with
      hdigits | ⟨before, b, after, hsplit, hbefore, hb⟩
    · obtain ⟨bytes, hdecode, hbytes⟩ := exists_decode heven hdigits
      rw [h.ofHex_of_ok hdecode] at hread
      rcases h.ofBytes_answers bytes with ⟨a, rfl⟩ | ⟨hwrong, -⟩
      · rw [h.ofBytes_toList] at hread
        cases hread
      · exact ⟨_, .wrongLength bytes.length hdigits hbytes hwrong⟩
    · exact ⟨_, .badCharacter before after b heven hsplit hbefore hb⟩
  · exact ⟨_, .oddLength hodd⟩

theorem readByDigits (text : String) :
    ReadByDigits ofHex toHex toList badHex wrongLength text := by
  refine ⟨h.exists_ofHex_iff, fun a => h.ofHex_eq_ok_iff.1, ?_, ?_,
    fun e => ⟨h.misspelled_of_ofHex, h.ofHex_of_misspelled⟩⟩
  · intro a hread
    rw [h.toHex_eq, encode, (h.ofHex_eq_ok_iff.1 hread).map_toLower_eq]
  · intro a _
    rw [h.ofHex_eq, h.toHex_eq, decode_encode]
    exact h.ofBytes_toList a

end Takes32
end Hex

section Readers

theorem FixedBytes.ofList?_answers (bytes : List UInt8) :
    (∃ a : FixedBytes 32, bytes = a.toList) ∨
      bytes.length ≠ 32 ∧ (ofList? bytes : Option (FixedBytes 32)) = none := by
  by_cases h : bytes.length = 32
  · exact .inl ⟨⟨bytes, h⟩, rfl⟩
  · exact .inr ⟨h, dif_neg h⟩

theorem Digest.takes32 :
    Hex.Takes32 ofHex toHex toList Fault.badHex Fault.wrongLength ofBytes where
  ofHex_eq _ := rfl
  toHex_eq _ := rfl
  ofBytes_toList d := ofBytes_eq_ok_iff.2 rfl
  length_toList := length_toList
  ofBytes_answers bytes := by
    rcases FixedBytes.ofList?_answers bytes with ⟨a, rfl⟩ | ⟨hlength, hnone⟩
    · exact .inl ⟨⟨a⟩, rfl⟩
    · exact .inr ⟨hlength, by rw [ofBytes, hnone]⟩

theorem Address.takes32 :
    Hex.Takes32 ofHex toHex toList Fault.badHex (fun _ => Fault.wrongLength) ofBytes where
  ofHex_eq _ := rfl
  toHex_eq _ := rfl
  ofBytes_toList a := by
    have hof : FixedBytes.ofList? a.toList = some a.bytes := FixedBytes.ofList?_toList a.bytes
    rw [ofBytes, hof]
  length_toList a := a.bytes.length_toList
  ofBytes_answers bytes := by
    rcases FixedBytes.ofList?_answers bytes with ⟨a, rfl⟩ | ⟨hlength, hnone⟩
    · exact .inl ⟨⟨a⟩, rfl⟩
    · exact .inr ⟨hlength, by rw [ofBytes, hnone]⟩

end Readers

/-- Every text is read by its digits, as a digest and as an address. -/
theorem Hex.readByDigits_ofHex (text : String) :
    ReadByDigits Digest.ofHex Digest.toHex Digest.toList .badHex .wrongLength text ∧
      ReadByDigits Address.ofHex Address.toHex Address.toList .badHex (fun _ => .wrongLength)
        text :=
  ⟨Digest.takes32.readByDigits text, Address.takes32.readByDigits text⟩

-- Four bytes, as the last character has two: the second prefix is found first.
example : Address.ofHex "0x0xé" = .error (.badHex (.badCharacter 0x78 1)) := by decide +kernel

end VerifiedLedger
