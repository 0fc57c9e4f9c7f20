import VerifiedLedger.Json.Parser
import VerifiedLedger.Json.Printer
import VerifiedLedger.Proofs.Text.Decimal
/-! # Strings and numbers read back

What the printer writes for a string or a number is scanned as that string or number, and what
follows it is left alone. A string ends at its quote; a number ends because no character that could
continue it comes next.
-/
namespace VerifiedLedger.Json

section Strings

/-- The piece that is scanned where the character was written. -/
inductive Piece.Stands : Piece → Char → Prop
  | char (c : Char) : Stands (.char c) c
  | unit {c : Char} (h : c.toNat < 32) : Stands (.unit c.toNat) c

theorem hexValue_digit : ∀ n < 16, hexValue (Hex.digit n) = some n := by decide

theorem scanString_unit {c : Char} (h : c.toNat < 256) (rest : List Char) :
    scanString (['\\', 'u', '0', '0', Hex.digit (c.toNat / 16), Hex.digit (c.toNat % 16)] ++ rest) =
      (scanString rest).map fun read => (.unit c.toNat :: read.1, read.2) := by
  have hzero : hexValue '0' = some 0 := by decide
  have hhigh := hexValue_digit (c.toNat / 16) (by omega)
  have hlow := hexValue_digit (c.toNat % 16) (by omega)
  have hcode : 4096 * 0 + 256 * 0 + 16 * (c.toNat / 16) + c.toNat % 16 = c.toNat := by omega
  rw [List.cons_append, List.cons_append, List.cons_append, List.cons_append, List.cons_append,
    List.cons_append, List.nil_append, scanString, hzero, hhigh, hlow]
  simp only [Option.bind_eq_bind, Option.bind_some, hcode]
  cases scanString rest with
  | none => rfl
  | some read => rfl

theorem scanString_short {c plain : Char} (h : shortEscape c = some plain) (rest : List Char) :
    scanString (['\\', c] ++ rest) =
      (scanString rest).map fun read => (.char plain :: read.1, read.2) := by
  have hu : c ≠ 'u' := by
    rintro rfl
    cases h
  rw [List.cons_append, List.cons_append, List.nil_append, scanString.eq_def]
  split
  · contradiction
  · rename_i heq
    cases heq
  · rename_i heq
    cases heq
    exact absurd rfl hu
  · rename_i heq
    cases heq
    rw [h]
    cases scanString rest with
    | none => rfl
    | some read => rfl
  · rename_i hother heq
    cases heq
    exact absurd rfl (hother c rest rfl)

theorem scanString_char {c : Char} (hquote : c ≠ '"') (hescape : c ≠ '\\') (h : ¬c.toNat < 32)
    (rest : List Char) :
    scanString (c :: rest) = (scanString rest).map fun read => (.char c :: read.1, read.2) := by
  rw [scanString.eq_def]
  split
  · contradiction
  · rename_i heq
    cases heq
    exact absurd rfl hquote
  · rename_i heq
    cases heq
    exact absurd rfl hescape
  · rename_i heq
    cases heq
    exact absurd rfl hescape
  · rename_i heq
    cases heq
    rw [if_neg (not_or.2 ⟨h, hescape⟩)]
    cases scanString rest with
    | none => rfl
    | some read => rfl

/-- A short escape, a code unit, or the character itself: one piece for each character. -/
theorem exists_piece (c : Char) : ∃ piece : Piece, piece.Stands c ∧ ∀ rest,
    scanString (escapeChar c ++ rest) =
      (scanString rest).map fun read => (piece :: read.1, read.2) := by
  have hof {n : ℕ} (h : c.toNat = n) : c = Char.ofNat n := by rw [← h, Char.ofNat_toNat]
  unfold escapeChar
  split
  · next h => exact ⟨.char c, .char c, scanString_short (by rw [h]; rfl)⟩
  split
  · next h => exact ⟨.char c, .char c, scanString_short (by rw [h]; rfl)⟩
  split
  · next h => exact ⟨.char c, .char c, scanString_short (by rw [h]; rfl)⟩
  split
  · next h => exact ⟨.char c, .char c, scanString_short (by rw [h]; rfl)⟩
  split
  · next h => exact ⟨.char c, .char c, scanString_short (by rw [h]; rfl)⟩
  split
  · next h => exact ⟨.char c, .char c, scanString_short (by rw [hof h]; rfl)⟩
  split
  · next h => exact ⟨.char c, .char c, scanString_short (by rw [hof h]; rfl)⟩
  split
  · next h => exact ⟨.unit c.toNat, .unit h, scanString_unit (Nat.lt_trans h (by decide))⟩
  · next hquote hescape _ _ _ _ _ h => exact ⟨.char c, .char c, scanString_char hquote hescape h⟩

/-- What stands for a character is read as that character, whatever comes behind. -/
theorem Piece.Stands.joinPieces_cons {piece : Piece} {c : Char} (h : piece.Stands c)
    (pieces : List Piece) : joinPieces (piece :: pieces) = (c :: ·) <$> joinPieces pieces := by
  cases h with
  | char => rfl
  | unit hlt =>
    have hhigh : isHighSurrogate c.toNat = false := by
      rw [isHighSurrogate, decide_eq_false (by omega), Bool.false_and]
    have hlow : isLowSurrogate c.toNat = false := by
      rw [isLowSurrogate, decide_eq_false (by omega), Bool.false_and]
    cases pieces with
    | nil => simp [joinPieces, hhigh, hlow, Char.ofNat_toNat]
    | cons next pieces =>
      cases next with
      | char d => simp [joinPieces, hhigh, hlow, Char.ofNat_toNat]
      | unit code => simp [joinPieces, hhigh, hlow, Char.ofNat_toNat]

theorem scanString_escaped (cs rest : List Char) :
    ∃ pieces, scanString (cs.flatMap escapeChar ++ '"' :: rest) = some (pieces, rest) ∧
      joinPieces pieces = some cs := by
  induction cs with
  | nil => exact ⟨[], rfl, rfl⟩
  | cons c cs ih =>
    obtain ⟨pieces, hscan, hjoin⟩ := ih
    obtain ⟨piece, hstands, hpiece⟩ := exists_piece c
    refine ⟨piece :: pieces, ?_, ?_⟩
    · rw [List.flatMap_cons, List.append_assoc, hpiece, hscan, Option.map_some]
    · rw [hstands.joinPieces_cons, hjoin]
      rfl

theorem parseText_escaped (s : String) (rest : List Char) :
    parseText (s.toList.flatMap escapeChar ++ '"' :: rest) = some (some s, rest) := by
  obtain ⟨pieces, hscan, hjoin⟩ := scanString_escaped s.toList rest
  simp only [parseText, hscan, hjoin, Option.bind_eq_bind, Option.bind_some, Option.map_eq_map,
    Option.map_some, String.ofList_toList, Option.pure_def]

end Strings

section Numbers

/-- No number goes on with what comes next. -/
def Ends (rest : List Char) : Prop :=
  ∀ c ∈ rest.head?, isDigit c = false ∧ c ≠ '.' ∧ c ≠ 'e' ∧ c ≠ 'E'

theorem ends_nil : Ends [] := nofun

theorem ends_cons {c : Char} (h : isDigit c = false ∧ c ≠ '.' ∧ c ≠ 'e' ∧ c ≠ 'E')
    (rest : List Char) : Ends (c :: rest) := by
  rintro _ ⟨⟩
  exact h

theorem isDigit_of_mem_toDigits {n : ℕ} {c : Char} (h : c ∈ Nat.toDigits 10 n) :
    isDigit c = true :=
  Nat.isDigit_of_mem_toDigits (by decide) (by decide) h

theorem exists_toDigits_eq_cons (n : ℕ) :
    ∃ c digits, Nat.toDigits 10 n = c :: digits ∧ isDigit c = true := by
  obtain ⟨c, digits, h⟩ :=
    List.exists_cons_of_ne_nil (Nat.toDigits_ne_nil : Nat.toDigits 10 n ≠ [])
  exact ⟨c, digits, h, isDigit_of_mem_toDigits (h ▸ List.mem_cons_self)⟩

/-- A number is written without a leading zero. -/
theorem eq_zero_of_toDigits {n : ℕ} {digits : List Char}
    (h : Nat.toDigits 10 n = '0' :: digits) : n = 0 := by
  induction n using Nat.strongRecOn generalizing digits with
  | _ n ih =>
    rcases Nat.lt_or_ge n 10 with hlt | hge
    · rw [Nat.toDigits_of_lt_base hlt] at h
      exact Nat.digitChar_eq_zero.1 (List.cons_eq_cons.1 h).1
    · obtain ⟨c, front, hfront, -⟩ := exists_toDigits_eq_cons (n / 10)
      rw [Nat.toDigits_of_base_le (by decide) hge, hfront] at h
      obtain ⟨rfl, -⟩ := List.cons_eq_cons.1 h
      have hzero := ih (n / 10) (by omega) hfront
      omega

theorem takeWhile_isDigit {digits rest : List Char} (hdigits : ∀ c ∈ digits, isDigit c = true)
    (hrest : Ends rest) :
    (digits ++ rest).takeWhile isDigit = digits ∧ (digits ++ rest).dropWhile isDigit = rest := by
  have hstop : rest.takeWhile isDigit = [] ∧ rest.dropWhile isDigit = rest := by
    cases rest with
    | nil => exact ⟨rfl, rfl⟩
    | cons c rest =>
      have hc := (hrest c rfl).1
      exact ⟨List.takeWhile_cons_of_neg (by simp [hc]), List.dropWhile_cons_of_neg (by simp [hc])⟩
  rw [List.takeWhile_append_of_pos hdigits, List.dropWhile_append_of_pos hdigits, hstop.1, hstop.2,
    List.append_nil]
  exact ⟨rfl, rfl⟩

theorem scanInteger_toDigits (n : ℕ) {rest : List Char} (hrest : Ends rest) :
    scanInteger (Nat.toDigits 10 n ++ rest) = some (Nat.toDigits 10 n, rest) := by
  obtain ⟨htake, hdrop⟩ := takeWhile_isDigit (fun _ => isDigit_of_mem_toDigits (n := n)) hrest
  unfold scanInteger
  split
  · next after heq =>
    obtain ⟨c, digits, hdigits, -⟩ := exists_toDigits_eq_cons n
    rw [hdigits] at heq
    obtain ⟨rfl, -⟩ := List.cons_eq_cons.1 heq
    obtain rfl := eq_zero_of_toDigits hdigits
    cases hdigits
    cases heq
    rfl
  · rw [htake, hdrop]
    split
    · next hnil => exact absurd hnil Nat.toDigits_ne_nil
    · rfl

theorem digitsValue_toDigits (n : ℕ) : digitsValue (Nat.toDigits 10 n) = n :=
  Nat.ofDigitChars_ten_toDigits

theorem scanFraction_of_ends {rest : List Char} (h : Ends rest) :
    scanFraction rest = some ([], rest) := by
  unfold scanFraction
  split
  · exact absurd rfl (h _ rfl).2.1
  · rfl

theorem scanExponent_of_ends {rest : List Char} (h : Ends rest) :
    scanExponent rest = some ([], rest) := by
  cases rest with
  | nil => rfl
  | cons c rest =>
    obtain ⟨-, -, hlower, hupper⟩ := h c rfl
    exact if_neg (not_or.2 ⟨hlower, hupper⟩)

theorem scanMinus_toDigits (n : ℕ) (rest : List Char) :
    scanMinus (Nat.toDigits 10 n ++ rest) = ([], Nat.toDigits 10 n ++ rest) := by
  unfold scanMinus
  split
  · next after heq =>
    obtain ⟨c, digits, hdigits, hc⟩ := exists_toDigits_eq_cons n
    rw [hdigits] at heq
    obtain ⟨rfl, -⟩ := List.cons_eq_cons.1 heq
    cases hc
  · rfl

theorem parseNumber_toDigits (n : ℕ) {rest : List Char} (hrest : Ends rest) :
    parseNumber (Nat.toDigits 10 n ++ rest) = some (.nat n, rest) := by
  simp only [parseNumber, scanMinus_toDigits, scanInteger_toDigits n hrest,
    scanFraction_of_ends hrest, scanExponent_of_ends hrest, Option.bind_eq_bind, Option.bind_some,
    List.isEmpty_nil, Bool.and_self, if_true, digitsValue_toDigits, Option.pure_def]

end Numbers
end VerifiedLedger.Json
