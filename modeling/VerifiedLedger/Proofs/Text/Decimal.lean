import Mathlib.Algebra.Group.Nat.Defs
import VerifiedLedger.Text.Decimal
/-! # Decimal text and back

A numeral is read as its value: no sum on the way is larger than the last one, so that a sum which
leaves the words is not made up for later. The digits of a number are the one numeral of it that has
no sign and no zero in front.
-/
namespace VerifiedLedger.Decimal
variable {c : Char} {text sign digits rest : List Char} {value n d : ℕ}

theorem digitValue_eq_some_iff : digitValue c = some d ↔ c.isDigit ∧ c.toNat - 48 = d := by
  have hrange : c.isDigit ↔ '0' ≤ c ∧ c ≤ '9' := by
    rw [Char.isDigit, Bool.and_eq_true, decide_eq_true_eq, decide_eq_true_eq]
    rfl
  rw [digitValue, hrange]
  by_cases h : '0' ≤ c ∧ c ≤ '9' <;> simp [h]

theorem le_ofDigitChars (value : ℕ) (digits : List Char) :
    value ≤ Nat.ofDigitChars 10 digits value := by
  induction digits generalizing value with
  | nil => exact Nat.le_refl value
  | cons c digits ih =>
    have hstep := ih (10 * value + (c.toNat - 48))
    exact Nat.le_trans (by omega) hstep

theorem readDigits_eq_ok_iff (hvalue : value < UInt64.size) :
    readDigits value digits = .ok n ↔
      (∀ c ∈ digits, c.isDigit) ∧ n < UInt64.size ∧ Nat.ofDigitChars 10 digits value = n := by
  induction digits generalizing value with
  | nil =>
    rw [readDigits, Except.ok.injEq, Nat.ofDigitChars_nil]
    constructor
    · rintro rfl
      exact ⟨nofun, hvalue, rfl⟩
    · exact fun h => h.2.2
  | cons c digits ih =>
    rw [List.forall_mem_cons, readDigits]
    cases hdigit : digitValue c with
    | none =>
      refine ⟨nofun, fun h => ?_⟩
      cases hdigit.symm.trans (digitValue_eq_some_iff.2 ⟨h.1.1, rfl⟩)
    | some d =>
      obtain ⟨hc, rfl⟩ := digitValue_eq_some_iff.1 hdigit
      dsimp only
      by_cases hsize : 10 * value + (c.toNat - 48) < UInt64.size
      · rw [if_pos hsize, ih hsize]
        simp only [hc, true_and]
        exact Iff.rfl
      · rw [if_neg hsize]
        refine ⟨nofun, fun h => ?_⟩
        have hlast := le_ofDigitChars (10 * value + (c.toNat - 48)) digits
        obtain ⟨-, hbound, rfl⟩ := h
        exact absurd (Nat.lt_of_le_of_lt hlast hbound) hsize

theorem read_of_ne_plus (hplus : c ≠ '+') (rest : List Char) :
    read (c :: rest) = readDigits 0 (c :: rest) := by
  unfold read
  split
  · contradiction
  · rename_i heq
    exact absurd (List.cons_eq_cons.1 heq).1 hplus
  · rename_i heq
    exact absurd (List.cons_eq_cons.1 heq).1 hplus
  · rfl

/-- One plus sign or none, and the digits of a number that fits a word. Zeros in front do not
matter. -/
structure Numeral (sign digits : List Char) : Prop where
  sign : sign = [] ∨ sign = ['+']
  nonempty : digits ≠ []
  isDigit : ∀ c ∈ digits, c.isDigit
  bound : Nat.ofDigitChars 10 digits 0 < 2 ^ 64

def IsNumeral (text : List Char) : Prop :=
  ∃ sign digits, text = sign ++ digits ∧ Numeral sign digits

theorem Numeral.read_eq (h : Numeral sign digits) :
    read (sign ++ digits) = .ok (Nat.ofDigitChars 10 digits 0) := by
  obtain ⟨hsign, hne, hdigits, hbound⟩ := h
  have hread : readDigits 0 digits = .ok (Nat.ofDigitChars 10 digits 0) :=
    (readDigits_eq_ok_iff (by decide)).2 ⟨hdigits, hbound, rfl⟩
  obtain ⟨c, rest, rfl⟩ := List.exists_cons_of_ne_nil hne
  rcases hsign with rfl | rfl
  · have hplus : c ≠ '+' := by
      rintro rfl
      cases hdigits _ List.mem_cons_self
    rwa [List.nil_append, read_of_ne_plus hplus]
  · exact hread

theorem numeral_of_readDigits (hsign : sign = [] ∨ sign = ['+']) (hne : digits ≠ [])
    (h : readDigits 0 digits = .ok n) : Numeral sign digits := by
  obtain ⟨hdigits, hbound, rfl⟩ := (readDigits_eq_ok_iff (by decide)).1 h
  exact ⟨hsign, hne, hdigits, hbound⟩

theorem isNumeral_of_read (h : read text = .ok n) : IsNumeral text := by
  cases text with
  | nil => cases h
  | cons c rest =>
    by_cases hplus : c = '+'
    · subst hplus
      cases rest with
      | nil => cases h
      | cons c rest =>
        exact ⟨['+'], c :: rest, rfl, numeral_of_readDigits (.inr rfl) nofun h⟩
    · rw [read_of_ne_plus hplus] at h
      exact ⟨[], c :: rest, rfl, numeral_of_readDigits (.inl rfl) nofun h⟩

section Canonical

theorem digitChar_of_isDigit (h : c.isDigit) :
    c.toNat - 48 < 10 ∧ Nat.digitChar (c.toNat - 48) = c := by
  have hchars : ∀ d < 10, Nat.digitChar d = Char.ofNat (48 + d) := by decide
  obtain ⟨hlow, hhigh⟩ : 48 ≤ c.toNat ∧ c.toNat ≤ 57 := by
    rwa [Char.isDigit, Bool.and_eq_true, decide_eq_true_eq, decide_eq_true_eq] at h
  have hsmall : c.toNat - 48 < 10 := by omega
  refine ⟨hsmall, ?_⟩
  rw [hchars _ hsmall, Nat.add_sub_cancel' hlow, Char.ofNat_toNat]

theorem toDigits_zero_cons (h : Nat.toDigits 10 n = '0' :: rest) : rest = [] := by
  induction n using Nat.strongRecOn generalizing rest with
  | ind n ih =>
    by_cases hsmall : n < 10
    · rw [Nat.toDigits_of_lt_base hsmall] at h
      exact (List.cons.inj h).2.symm
    · rw [Nat.toDigits_of_base_le (by decide) (Nat.not_lt.1 hsmall)] at h
      obtain ⟨first, others, hfirst⟩ :=
        List.exists_cons_of_ne_nil (@Nat.toDigits_ne_nil (n / 10) 10)
      rw [hfirst, List.cons_append] at h
      obtain ⟨rfl, -⟩ := List.cons.inj h
      rw [ih (n / 10) (by omega) hfirst] at hfirst
      have hzero : n / 10 = 0 := by
        rw [← @Nat.ofDigitChars_ten_toDigits (n / 10), hfirst]
        rfl
      omega

/-- Behind a number that has been read, each digit is the next one of the larger number. -/
theorem toDigits_append (hdigits : ∀ c ∈ digits, c.isDigit) (hpos : 0 < value) :
    Nat.toDigits 10 value ++ digits = Nat.toDigits 10 (Nat.ofDigitChars 10 digits value) := by
  induction digits generalizing value with
  | nil => exact List.append_nil _
  | cons c digits ih =>
    rw [List.forall_mem_cons] at hdigits
    obtain ⟨hsmall, hchar⟩ := digitChar_of_isDigit hdigits.1
    have hnext : 0 < 10 * value + (c.toNat - 48) := by omega
    have hone := Nat.toDigits_append_toDigits (b := 10) (by decide) hpos hsmall
    rw [Nat.toDigits_of_lt_base hsmall, hchar] at hone
    calc Nat.toDigits 10 value ++ c :: digits
        = Nat.toDigits 10 value ++ [c] ++ digits := (List.append_cons _ _ _)
      _ = Nat.toDigits 10 (10 * value + (c.toNat - 48)) ++ digits := by rw [hone]
      _ = _ := ih hdigits.2 hnext

theorem toDigits_ofDigitChars (hne : digits ≠ []) (hdigits : ∀ c ∈ digits, c.isDigit)
    (hzero : ∀ rest, digits = '0' :: rest → rest = []) :
    Nat.toDigits 10 (Nat.ofDigitChars 10 digits 0) = digits := by
  obtain ⟨c, rest, rfl⟩ := List.exists_cons_of_ne_nil hne
  rw [List.forall_mem_cons] at hdigits
  obtain ⟨hsmall, hchar⟩ := digitChar_of_isDigit hdigits.1
  have hvalue : Nat.ofDigitChars 10 (c :: rest) 0 = Nat.ofDigitChars 10 rest (c.toNat - 48) := by
    rw [Nat.ofDigitChars_cons, Nat.mul_zero, Nat.zero_add]
    rfl
  have hone : Nat.toDigits 10 (c.toNat - 48) = [c] := by
    rw [Nat.toDigits_of_lt_base hsmall, hchar]
  rw [hvalue]
  rcases Nat.eq_zero_or_pos (c.toNat - 48) with hnull | hpos
  · rw [hnull] at hchar
    rw [hzero rest (by rw [← hchar]; rfl)]
    exact hone
  · rw [← toDigits_append hdigits.2 hpos, hone]
    rfl

theorem toList_toString (n : ℕ) : (toString n).toList = Nat.toDigits 10 n := by
  rw [Nat.toString_eq_ofList_toDigits, String.toList_ofList]

theorem isDigit_of_mem_toString (h : c ∈ (toString n).toList) : c.isDigit := by
  rw [toList_toString] at h
  exact Nat.isDigit_of_mem_toDigits (by decide) (by decide) h

/-- The numerals that are written again as they are. -/
theorem Numeral.toString_eq_iff (h : Numeral sign digits) :
    (toString (Nat.ofDigitChars 10 digits 0)).toList = sign ++ digits ↔
      sign = [] ∧ ∀ rest, digits = '0' :: rest → rest = [] := by
  obtain ⟨hsign, hne, hdigits, -⟩ := h
  constructor
  · intro hsame
    rcases hsign with rfl | rfl
    · rw [toList_toString, List.nil_append] at hsame
      exact ⟨rfl, fun rest hrest => toDigits_zero_cons (hsame.trans hrest)⟩
    · have hplus : '+' ∈ (toString (Nat.ofDigitChars 10 digits 0)).toList := by
        rw [hsame]
        exact List.mem_cons_self
      cases isDigit_of_mem_toString hplus
  · rintro ⟨rfl, hzero⟩
    rw [toList_toString, List.nil_append]
    exact toDigits_ofDigitChars hne hdigits hzero

theorem read_toString (h : n < UInt64.size) : read (toString n).toList = .ok n := by
  have hvalue : Nat.ofDigitChars 10 (toString n).toList 0 = n := by
    rw [toList_toString, Nat.ofDigitChars_ten_toDigits]
  have hne : (toString n).toList ≠ [] := by
    rw [toList_toString]
    exact Nat.toDigits_ne_nil
  have hnumeral : Numeral [] (toString n).toList :=
    ⟨.inl rfl, hne, fun c => isDigit_of_mem_toString, Nat.lt_of_le_of_lt (Nat.le_of_eq hvalue) h⟩
  rw [← List.nil_append (toString n).toList, hnumeral.read_eq, hvalue]

end Canonical

end VerifiedLedger.Decimal
