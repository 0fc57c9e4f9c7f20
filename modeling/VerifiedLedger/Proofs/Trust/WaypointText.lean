import VerifiedLedger.Proofs.Bytes.HexSpelling
import VerifiedLedger.Proofs.Trust.Waypoint
/-! # Which texts are waypoints

A waypoint may be written with a plus sign, with zeros in front and in capitals, and these are the
only liberties. Of a text that is no waypoint the leftmost part that is wrong is reported.
-/
namespace VerifiedLedger.Waypoint
variable {chars version hash sign digits : List Char} {text : String} {w : Waypoint} {d : Digest}

section Split

theorem splitAtColon_eq_none_iff : splitAtColon chars = none ↔ ':' ∉ chars := by
  constructor
  · intro h hcolon
    obtain ⟨before, after, rfl, hfirst⟩ := List.eq_append_cons_of_mem hcolon
    rw [splitAtColon_append hfirst] at h
    cases h
  · intro h
    induction chars with
    | nil => rfl
    | cons c chars ih =>
      rw [List.mem_cons, not_or] at h
      rw [splitAtColon, if_neg (Ne.symm h.1), ih h.2]
      rfl

theorem readHash_eq_ok_iff : readHash hash = .ok d ↔ Hex.Spells hash d.toList := by
  rw [readHash, ite_error_eq_ok_iff, ne_eq, Decidable.not_not]
  constructor
  · rintro ⟨hlength, h⟩
    rw [← Digest.ofHex_ofList_eq_ok_iff hlength]
    cases hread : Digest.ofHex (String.ofList hash) with
    | error fault =>
      rw [hread] at h
      cases h
    | ok value =>
      rw [hread] at h
      cases h
      rfl
  · intro h
    have hlength : (Utf8.encodeChars hash).length = 64 := by
      rw [h.length_encodeChars, d.length_toList]
    rw [(Digest.ofHex_ofList_eq_ok_iff hlength).2 h]
    exact ⟨hlength, rfl⟩

variable (htext : text.toList = version ++ ':' :: hash) (hfirst : ':' ∉ version)
include htext hfirst

/-- The version is looked at before the hash. -/
theorem ofText_cases :
    (¬Decimal.IsNumeral version ∧ ∃ fault, ofText text = .error (.badVersion fault)) ∨
      (Decimal.IsNumeral version ∧ ¬Digest.IsSpelled hash ∧
        ∃ fault, ofText text = .error (.badHash fault)) ∨
      ∃ sign digits d, version = sign ++ digits ∧ Decimal.Numeral sign digits ∧
        Hex.Spells hash d.toList ∧
        ofText text = .ok ⟨UInt64.ofNat (Nat.ofDigitChars 10 digits 0), d⟩ := by
  rw [ofText, htext, splitAtColon_append hfirst]
  dsimp only
  cases hread : Decimal.read version with
  | error fault =>
    refine .inl ⟨fun hnumeral => ?_, fault, rfl⟩
    obtain ⟨sign, digits, rfl, h⟩ := hnumeral
    cases hread.symm.trans h.read_eq
  | ok n =>
    have hnumeral := Decimal.isNumeral_of_read hread
    cases hvalue : readHash hash with
    | error fault =>
      refine .inr (.inl ⟨hnumeral, fun hspelled => ?_, fault, rfl⟩)
      obtain ⟨d, hd⟩ := Digest.exists_spells_iff.2 hspelled
      cases hvalue.symm.trans (readHash_eq_ok_iff.2 hd)
    | ok d =>
      obtain ⟨sign, digits, rfl, h⟩ := hnumeral
      cases hread.symm.trans h.read_eq
      exact .inr (.inr ⟨sign, digits, d, rfl, h, readHash_eq_ok_iff.1 hvalue, rfl⟩)

theorem badVersion_iff_of_split :
    (∃ fault, ofText text = .error (.badVersion fault)) ↔ ¬Decimal.IsNumeral version := by
  rcases ofText_cases htext hfirst with ⟨hbad, hfault⟩ | ⟨hnumeral, -, fault, h⟩ |
    ⟨sign, digits, d, hparts, hnumeral, -, h⟩
  · exact ⟨fun _ => hbad, fun _ => hfault⟩
  · simp [h, hnumeral]
  · rw [h]
    exact ⟨nofun, fun hbad => absurd ⟨sign, digits, hparts, hnumeral⟩ hbad⟩

theorem badHash_iff_of_split :
    (∃ fault, ofText text = .error (.badHash fault)) ↔
      Decimal.IsNumeral version ∧ ¬Digest.IsSpelled hash := by
  rcases ofText_cases htext hfirst with ⟨hbad, fault, h⟩ | ⟨hnumeral, hbad, hfault⟩ |
    ⟨sign, digits, d, -, -, hspells, h⟩
  · simp [h, hbad]
  · exact ⟨fun _ => ⟨hnumeral, hbad⟩, fun _ => hfault⟩
  · rw [h]
    exact ⟨nofun, fun hbad => absurd (Digest.exists_spells_iff.1 ⟨d, hspells⟩) hbad.2⟩

end Split

theorem missingSeparator_iff : ofText text = .error .missingSeparator ↔ ':' ∉ text.toList := by
  constructor
  · intro h hcolon
    obtain ⟨version, hash, htext, hfirst⟩ := List.eq_append_cons_of_mem hcolon
    rcases ofText_cases htext hfirst with ⟨-, fault, h'⟩ | ⟨-, -, fault, h'⟩ |
      ⟨sign, digits, d, -, -, -, h'⟩
    all_goals cases h.symm.trans h'
  · intro h
    rw [ofText, splitAtColon_eq_none_iff.2 h]

theorem colon_not_mem_of_numeral (h : Decimal.Numeral sign digits) : ':' ∉ sign ++ digits := by
  rw [List.mem_append, not_or]
  refine ⟨?_, fun hcolon => nomatch h.isDigit _ hcolon⟩
  rcases h.sign with rfl | rfl
  · exact nofun
  · decide

/-- A text is read as what its parts say. -/
theorem ofText_eq_ok_iff :
    ofText text = .ok w ↔ ∃ sign digits hash, text.toList = sign ++ digits ++ ':' :: hash ∧
      Decimal.Numeral sign digits ∧ Nat.ofDigitChars 10 digits 0 = w.version.toNat ∧
      Hex.Spells hash w.value.toList := by
  constructor
  · intro h
    have hcolon : ':' ∈ text.toList := by
      by_contra hnone
      rw [missingSeparator_iff.2 hnone] at h
      cases h
    obtain ⟨version, hash, htext, hfirst⟩ := List.eq_append_cons_of_mem hcolon
    rcases ofText_cases htext hfirst with ⟨-, fault, h'⟩ | ⟨-, -, fault, h'⟩ |
      ⟨sign, digits, d, rfl, hnumeral, hspells, h'⟩
    · cases h.symm.trans h'
    · cases h.symm.trans h'
    · cases h.symm.trans h'
      exact ⟨sign, digits, hash, htext, hnumeral,
        (UInt64.toNat_ofNat_of_lt' hnumeral.bound).symm, hspells⟩
  · rintro ⟨sign, digits, hash, htext, hnumeral, hversion, hspells⟩
    rw [ofText, htext, splitAtColon_append (colon_not_mem_of_numeral hnumeral)]
    simp only [hnumeral.read_eq, readHash_eq_ok_iff.2 hspells, hversion, UInt64.ofNat_toNat]

section Written

theorem append_colon_inj {version' hash' : List Char} (hfirst : ':' ∉ version)
    (hfirst' : ':' ∉ version') :
    version ++ ':' :: hash = version' ++ ':' :: hash' ↔ version = version' ∧ hash = hash' := by
  constructor
  · intro h
    have hsplit : splitAtColon (version ++ ':' :: hash) = some (version, hash) :=
      splitAtColon_append hfirst
    rw [h, splitAtColon_append hfirst'] at hsplit
    cases hsplit
    exact ⟨rfl, rfl⟩
  · rintro ⟨rfl, rfl⟩
    rfl

theorem toText_eq_iff (htext : text.toList = sign ++ digits ++ ':' :: hash)
    (hnumeral : Decimal.Numeral sign digits)
    (hversion : Nat.ofDigitChars 10 digits 0 = w.version.toNat)
    (hvalue : Hex.Spells hash w.value.toList) :
    w.toText = text ↔
      sign = [] ∧ (∀ rest, digits = '0' :: rest → rest = []) ∧ ∀ c ∈ hash, ¬c.isUpper := by
  have hhash : w.value.toHex.toList = Hex.encodeChars w.value.toList := String.toList_ofList
  rw [← String.toList_inj, toList_toText, htext,
    append_colon_inj (colon_not_mem_toString _) (colon_not_mem_of_numeral hnumeral), ← hversion,
    hnumeral.toString_eq_iff, hhash, hvalue.encodeChars_eq_iff, and_assoc]

end Written

/-- How a text is read: which texts are taken and as what, and what is said of the others. -/
structure ReadByForm (text : String) : Prop where
  accepted_iff : (∃ w, ofText text = .ok w) ↔ ∃ sign digits hash,
    text.toList = sign ++ digits ++ ':' :: hash ∧ Decimal.Numeral sign digits ∧
      Digest.IsSpelled hash
  value (w : Waypoint) (sign digits hash : List Char) (h : ofText text = .ok w)
    (htext : text.toList = sign ++ digits ++ ':' :: hash) (hnumeral : Decimal.Numeral sign digits) :
    w.version.toNat = Nat.ofDigitChars 10 digits 0 ∧ Hex.Spells hash w.value.toList ∧
      (w.toText = text ↔
        sign = [] ∧ (∀ rest, digits = '0' :: rest → rest = []) ∧ ∀ c ∈ hash, ¬c.isUpper)
  missingSeparator_iff : ofText text = .error .missingSeparator ↔ ':' ∉ text.toList
  badVersion_iff (version hash : List Char) (htext : text.toList = version ++ ':' :: hash)
    (hfirst : ':' ∉ version) :
    (∃ fault, ofText text = .error (.badVersion fault)) ↔ ¬Decimal.IsNumeral version
  badHash_iff (version hash : List Char) (htext : text.toList = version ++ ':' :: hash)
    (hfirst : ':' ∉ version) :
    (∃ fault, ofText text = .error (.badHash fault)) ↔
      Decimal.IsNumeral version ∧ ¬Digest.IsSpelled hash

/-- What is written is read back, and every text is read by its form. -/
theorem ofText_form :
    (∀ w : Waypoint, ofText w.toText = .ok w) ∧ ∀ text : String, ReadByForm text := by
  refine ⟨ofText_toText, fun text => ⟨?_, ?_, missingSeparator_iff,
    fun _ _ => badVersion_iff_of_split, fun _ _ => badHash_iff_of_split⟩⟩
  · constructor
    · rintro ⟨w, h⟩
      obtain ⟨sign, digits, hash, htext, hnumeral, -, hvalue⟩ := ofText_eq_ok_iff.1 h
      exact ⟨sign, digits, hash, htext, hnumeral, Digest.exists_spells_iff.1 ⟨_, hvalue⟩⟩
    · rintro ⟨sign, digits, hash, htext, hnumeral, hspelled⟩
      obtain ⟨d, hd⟩ := Digest.exists_spells_iff.2 hspelled
      have hversion := UInt64.toNat_ofNat_of_lt' hnumeral.bound
      exact ⟨⟨_, d⟩, ofText_eq_ok_iff.2 ⟨sign, digits, hash, htext, hnumeral, hversion.symm, hd⟩⟩
  · intro w sign digits hash h htext hnumeral
    obtain ⟨sign', digits', hash', htext', hnumeral', hversion, hvalue⟩ := ofText_eq_ok_iff.1 h
    rw [htext, append_colon_inj (colon_not_mem_of_numeral hnumeral)
      (colon_not_mem_of_numeral hnumeral')] at htext'
    obtain ⟨hsame, rfl⟩ := htext'
    -- The same characters may be a sign and digits in one way only, but their value is enough.
    have hread := hnumeral.read_eq
    rw [hsame, hnumeral'.read_eq, hversion] at hread
    have hdigits := (Except.ok.inj hread).symm
    exact ⟨hdigits.symm, hvalue, toText_eq_iff htext hnumeral hdigits hvalue⟩

end VerifiedLedger.Waypoint
