import Mathlib.Tactic.SplitIfs
import VerifiedLedger.Bytes.Utf8
import VerifiedLedger.Proofs.Checks
/-! # UTF-8 and back

Bytes are read as a text exactly if the text is written so. First bytes fall into four classes, by
how many bytes follow. What is read behind a first byte is a number of the class, and characters
with such numbers are written behind these first bytes.
-/
namespace VerifiedLedger.Utf8

section Tails
variable {index count seen low high code : ℕ} {bytes : List UInt8} {read : ℕ × List UInt8}

theorem decodeTail_zero_eq_ok_iff :
    decodeTail index 0 seen low high code bytes = .ok read ↔ (code, bytes) = read := by
  simp [decodeTail]

theorem decodeTail_succ_eq_ok_iff :
    decodeTail index (count + 1) seen low high code bytes = .ok read ↔
      ∃ b tail, bytes = b :: tail ∧ (low ≤ b.toNat ∧ b.toNat ≤ high) ∧
        decodeTail index count (seen + 1) 0x80 0xBF (64 * code + (b.toNat - 0x80)) tail =
          .ok read := by
  cases bytes with
  | nil => simp [decodeTail]
  | cons b tail =>
    by_cases h : low ≤ b.toNat ∧ b.toNat ≤ high <;> simp [decodeTail, h]

end Tails

section FirstBytes
variable {index n : ℕ} {first : UInt8} {bytes rest : List UInt8}

/-- A byte that may follow a first one, unless that one narrows the range. -/
def Continues (b : UInt8) : Prop := 0x80 ≤ b.toNat ∧ b.toNat ≤ 0xBF

theorem decodeFirst_one (h : first.toNat < 0x80) :
    decodeFirst index first bytes = .ok (n, rest) ↔ first.toNat = n ∧ bytes = rest := by
  have hshape : tailShape first.toNat = some (0, 0, 0) := if_pos h
  have hlead : leadBits first.toNat 0 = first.toNat := rfl
  simp only [decodeFirst, hshape, hlead, decodeTail_zero_eq_ok_iff, Prod.mk.injEq]

theorem decodeFirst_two (h : 0xC2 ≤ first.toNat ∧ first.toNat ≤ 0xDF) :
    decodeFirst index first bytes = .ok (n, rest) ↔
      ∃ b, bytes = b :: rest ∧ Continues b ∧
        64 * (first.toNat - 0xC0) + (b.toNat - 0x80) = n := by
  have hshape : tailShape first.toNat = some (1, 0x80, 0xBF) := by
    rw [tailShape, if_neg (by omega), if_pos h]
  have hlead : leadBits first.toNat 1 = first.toNat - 0xC0 := rfl
  simp only [decodeFirst, hshape, hlead, decodeTail_succ_eq_ok_iff, decodeTail_zero_eq_ok_iff,
    Prod.mk.injEq, Continues]
  constructor
  · rintro ⟨b, _, rfl, hb, hn, rfl⟩
    exact ⟨b, rfl, hb, hn⟩
  · rintro ⟨b, rfl, hb, hn⟩
    exact ⟨b, rest, rfl, hb, hn, rfl⟩

theorem decodeFirst_three (h : 0xE0 ≤ first.toNat ∧ first.toNat ≤ 0xEF) :
    decodeFirst index first bytes = .ok (n, rest) ↔
      ∃ b c, bytes = b :: c :: rest ∧ Continues b ∧ Continues c ∧
        64 * (64 * (first.toNat - 0xE0) + (b.toNat - 0x80)) + (c.toNat - 0x80) = n ∧
        0x800 ≤ n ∧ n.isValidChar := by
  have hshape : tailShape first.toNat = some (2, if first.toNat = 0xE0 then 0xA0 else 0x80,
      if first.toNat = 0xED then 0x9F else 0xBF) := by
    grind [tailShape]
  have hlead : leadBits first.toNat 2 = first.toNat - 0xE0 := rfl
  simp only [decodeFirst, hshape, hlead, decodeTail_succ_eq_ok_iff, decodeTail_zero_eq_ok_iff,
    Prod.mk.injEq, Continues, Nat.isValidChar]
  constructor
  · rintro ⟨b, _, rfl, hb, c, _, rfl, hc, hn, rfl⟩
    split_ifs at hb
    all_goals exact ⟨b, c, rfl, by omega, hc, hn, by omega, by omega⟩
  · rintro ⟨b, c, rfl, hb, hc, hn, hlarge, hvalid⟩
    refine ⟨b, _, rfl, ?_, c, rest, rfl, hc, hn, rfl⟩
    split_ifs <;> omega

theorem decodeFirst_four (h : 0xF0 ≤ first.toNat ∧ first.toNat ≤ 0xF4) :
    decodeFirst index first bytes = .ok (n, rest) ↔
      ∃ b c d, bytes = b :: c :: d :: rest ∧ Continues b ∧ Continues c ∧ Continues d ∧
        64 * (64 * (64 * (first.toNat - 0xF0) + (b.toNat - 0x80)) + (c.toNat - 0x80)) +
          (d.toNat - 0x80) = n ∧
        0x10000 ≤ n ∧ n.isValidChar := by
  have hshape : tailShape first.toNat = some (3, if first.toNat = 0xF0 then 0x90 else 0x80,
      if first.toNat = 0xF4 then 0x8F else 0xBF) := by
    grind [tailShape]
  have hlead : leadBits first.toNat 3 = first.toNat - 0xF0 := rfl
  simp only [decodeFirst, hshape, hlead, decodeTail_succ_eq_ok_iff, decodeTail_zero_eq_ok_iff,
    Prod.mk.injEq, Continues, Nat.isValidChar]
  constructor
  · rintro ⟨b, _, rfl, hb, c, _, rfl, hc, d, _, rfl, hd, hn, rfl⟩
    split_ifs at hb
    all_goals exact ⟨b, c, d, rfl, by omega, hc, hd, hn, by omega, by omega⟩
  · rintro ⟨b, c, d, rfl, hb, hc, hd, hn, hlarge, hvalid⟩
    refine ⟨b, _, rfl, ?_, c, _, rfl, hc, d, rest, rfl, hd, hn, rfl⟩
    split_ifs <;> omega

theorem decodeFirst_ne_ok (h : 0x80 ≤ first.toNat)
    (hgap : first.toNat < 0xC2 ∨ 0xF4 < first.toNat) :
    decodeFirst index first bytes ≠ .ok (n, rest) := by
  have hshape : tailShape first.toNat = none := by
    grind [tailShape]
  rw [decodeFirst, hshape]
  nofun

end FirstBytes

section Characters
variable {c : Char} {a b d e : UInt8} {index n : ℕ} {first : UInt8} {bytes rest : List UInt8}

theorem exists_char (h : n.isValidChar) : ∃ c : Char, c.toNat = n :=
  ⟨Char.ofNatAux n h, rfl⟩

theorem exists_byte (h : n < 256) : ∃ b : UInt8, b.toNat = n :=
  ⟨UInt8.ofNat n, by rw [UInt8.toNat_ofNat', Nat.mod_eq_of_lt h]⟩

theorem exists_continues (n : ℕ) : ∃ b, Continues b ∧ b.toNat = 0x80 + n % 64 := by
  obtain ⟨b, hb⟩ := exists_byte (n := 0x80 + n % 64) (by omega)
  exact ⟨b, by unfold Continues; omega, hb⟩

theorem ofNat_eq (h : n = b.toNat) : UInt8.ofNat n = b := by
  rw [h, UInt8.ofNat_toNat]

theorem encodeChar_one (hc : a.toNat = c.toNat) (ha : a.toNat < 0x80) : encodeChar c = [a] := by
  rw [encodeChar, if_pos (by omega), ofNat_eq hc.symm]

theorem encodeChar_two (hc : 64 * (a.toNat - 0xC0) + (b.toNat - 0x80) = c.toNat)
    (ha : 0xC2 ≤ a.toNat ∧ a.toNat ≤ 0xDF) (hb : Continues b) : encodeChar c = [a, b] := by
  unfold Continues at hb
  have hfirst : UInt8.ofNat (0xC0 + c.toNat / 64) = a := ofNat_eq (by omega)
  have hsecond : UInt8.ofNat (0x80 + c.toNat % 64) = b := ofNat_eq (by omega)
  rw [encodeChar, if_neg (by omega), if_pos (by omega), hfirst, hsecond]

theorem encodeChar_three
    (hc : 64 * (64 * (a.toNat - 0xE0) + (b.toNat - 0x80)) + (d.toNat - 0x80) = c.toNat)
    (hlarge : 0x800 ≤ c.toNat) (ha : 0xE0 ≤ a.toNat ∧ a.toNat ≤ 0xEF) (hb : Continues b)
    (hd : Continues d) : encodeChar c = [a, b, d] := by
  unfold Continues at hb hd
  have hfirst : UInt8.ofNat (0xE0 + c.toNat / 4096) = a := ofNat_eq (by omega)
  have hsecond : UInt8.ofNat (0x80 + c.toNat / 64 % 64) = b := ofNat_eq (by omega)
  have hthird : UInt8.ofNat (0x80 + c.toNat % 64) = d := ofNat_eq (by omega)
  rw [encodeChar, if_neg (by omega), if_neg (by omega), if_pos (by omega), hfirst, hsecond, hthird]

theorem encodeChar_four
    (hc : 64 * (64 * (64 * (a.toNat - 0xF0) + (b.toNat - 0x80)) + (d.toNat - 0x80)) +
      (e.toNat - 0x80) = c.toNat)
    (hlarge : 0x10000 ≤ c.toNat) (ha : 0xF0 ≤ a.toNat) (hb : Continues b) (hd : Continues d)
    (he : Continues e) : encodeChar c = [a, b, d, e] := by
  unfold Continues at hb hd he
  have hfirst : UInt8.ofNat (0xF0 + c.toNat / 262144) = a := ofNat_eq (by omega)
  have hsecond : UInt8.ofNat (0x80 + c.toNat / 4096 % 64) = b := ofNat_eq (by omega)
  have hthird : UInt8.ofNat (0x80 + c.toNat / 64 % 64) = d := ofNat_eq (by omega)
  have hfourth : UInt8.ofNat (0x80 + c.toNat % 64) = e := ofNat_eq (by omega)
  rw [encodeChar, if_neg (by omega), if_neg (by omega), if_neg (by omega), hfirst, hsecond, hthird,
    hfourth]

theorem exists_char_of_decodeFirst (h : decodeFirst index first bytes = .ok (n, rest)) :
    ∃ c : Char, c.toNat = n ∧ encodeChar c ++ rest = first :: bytes := by
  have hclass : first.toNat < 0x80 ∨ (0xC2 ≤ first.toNat ∧ first.toNat ≤ 0xDF) ∨
      (0xE0 ≤ first.toNat ∧ first.toNat ≤ 0xEF) ∨ (0xF0 ≤ first.toNat ∧ first.toNat ≤ 0xF4) ∨
      (0x80 ≤ first.toNat ∧ (first.toNat < 0xC2 ∨ 0xF4 < first.toNat)) := by omega
  rcases hclass with hf | hf | hf | hf | ⟨hlarge, hgap⟩
  · obtain ⟨rfl, rfl⟩ := (decodeFirst_one hf).1 h
    obtain ⟨c, hc⟩ := exists_char (n := first.toNat) (.inl (by omega))
    exact ⟨c, hc, congrArg (· ++ bytes) (encodeChar_one hc.symm hf)⟩
  · obtain ⟨b, rfl, hb, hn⟩ := (decodeFirst_two hf).1 h
    obtain ⟨c, rfl⟩ := exists_char (n := n) (.inl (by unfold Continues at hb; omega))
    exact ⟨c, rfl, congrArg (· ++ rest) (encodeChar_two hn hf hb)⟩
  · obtain ⟨b, d, rfl, hb, hd, hn, hlarge, hvalid⟩ := (decodeFirst_three hf).1 h
    obtain ⟨c, rfl⟩ := exists_char hvalid
    exact ⟨c, rfl, congrArg (· ++ rest) (encodeChar_three hn hlarge hf hb hd)⟩
  · obtain ⟨b, d, e, rfl, hb, hd, he, hn, hlarge, hvalid⟩ := (decodeFirst_four hf).1 h
    obtain ⟨c, rfl⟩ := exists_char hvalid
    exact ⟨c, rfl, congrArg (· ++ rest) (encodeChar_four hn hlarge hf.1 hb hd he)⟩
  · exact absurd h (decodeFirst_ne_ok hlarge hgap)

theorem toNat_lt (c : Char) : c.toNat < 0x110000 := by
  have hvalid : c.toNat.isValidChar := c.valid
  rw [Nat.isValidChar] at hvalid
  omega

theorem decodeFirst_of_encodeChar (h : encodeChar c ++ rest = first :: bytes) :
    decodeFirst index first bytes = .ok (c.toNat, rest) := by
  have hvalid : c.toNat.isValidChar := c.valid
  have hbound := toNat_lt c
  have hclass : c.toNat < 0x80 ∨ (0x80 ≤ c.toNat ∧ c.toNat < 0x800) ∨
      (0x800 ≤ c.toNat ∧ c.toNat < 0x10000) ∨ 0x10000 ≤ c.toNat := by omega
  rcases hclass with hc | ⟨hlow, hc⟩ | ⟨hlow, hc⟩ | hlow
  · obtain ⟨a, ha⟩ := exists_byte (n := c.toNat) (by omega)
    rw [encodeChar_one ha (by omega)] at h
    cases h
    exact (decodeFirst_one (by omega)).2 ⟨ha, rfl⟩
  · obtain ⟨a, ha⟩ := exists_byte (n := 0xC0 + c.toNat / 64) (by omega)
    obtain ⟨b, hb, hnb⟩ := exists_continues c.toNat
    have hn : 64 * (a.toNat - 0xC0) + (b.toNat - 0x80) = c.toNat := by omega
    rw [encodeChar_two hn (by omega) hb] at h
    cases h
    exact (decodeFirst_two (by omega)).2 ⟨b, rfl, hb, hn⟩
  · obtain ⟨a, ha⟩ := exists_byte (n := 0xE0 + c.toNat / 4096) (by omega)
    obtain ⟨b, hb, hnb⟩ := exists_continues (c.toNat / 64)
    obtain ⟨d, hd, hnd⟩ := exists_continues c.toNat
    have hn : 64 * (64 * (a.toNat - 0xE0) + (b.toNat - 0x80)) + (d.toNat - 0x80) = c.toNat := by
      omega
    rw [encodeChar_three hn hlow (by omega) hb hd] at h
    cases h
    exact (decodeFirst_three (by omega)).2 ⟨b, d, rfl, hb, hd, hn, hlow, hvalid⟩
  · obtain ⟨a, ha⟩ := exists_byte (n := 0xF0 + c.toNat / 262144) (by omega)
    obtain ⟨b, hb, hnb⟩ := exists_continues (c.toNat / 4096)
    obtain ⟨d, hd, hnd⟩ := exists_continues (c.toNat / 64)
    obtain ⟨e, he, hne⟩ := exists_continues c.toNat
    have hn : 64 * (64 * (64 * (a.toNat - 0xF0) + (b.toNat - 0x80)) + (d.toNat - 0x80)) +
        (e.toNat - 0x80) = c.toNat := by omega
    rw [encodeChar_four hn hlow (by omega) hb hd he] at h
    cases h
    exact (decodeFirst_four (by omega)).2 ⟨b, d, e, rfl, hb, hd, he, hn, hlow, hvalid⟩

end Characters

theorem length_encodeChar_pos (c : Char) : 0 < (encodeChar c).length := by
  rw [encodeChar]
  split_ifs <;> exact Nat.succ_pos _

theorem length_encodeChars_le (cs : List Char) : (encodeChars cs).length ≤ 4 * cs.length := by
  induction cs with
  | nil => exact Nat.le_refl 0
  | cons c cs ih =>
    have hc : (encodeChar c).length ≤ 4 := by
      rw [encodeChar]
      split_ifs <;> exact Nat.le_of_ble_eq_true rfl
    rw [encodeChars, List.flatMap_cons, List.length_append, List.length_cons, Nat.mul_succ,
      Nat.add_comm]
    exact Nat.add_le_add ih hc

theorem encodeChars_eq_nil_iff {cs : List Char} : encodeChars cs = [] ↔ cs = [] := by
  constructor
  · intro h
    cases cs with
    | nil => rfl
    | cons c cs =>
      have hempty := (List.append_eq_nil_iff.1 h).1
      have hpos := length_encodeChar_pos c
      rw [hempty] at hpos
      exact absurd hpos (Nat.lt_irrefl 0)
  · rintro rfl
    rfl

theorem decodeFrom_eq_ok_iff {fuel index : ℕ} {bytes : List UInt8} {cs : List Char}
    (hfuel : bytes.length ≤ fuel) :
    decodeFrom fuel index bytes = .ok cs ↔ encodeChars cs = bytes := by
  induction fuel generalizing index bytes cs with
  | zero =>
    rw [List.length_eq_zero_iff.1 (Nat.le_zero.1 hfuel), decodeFrom, encodeChars_eq_nil_iff,
      Except.ok.injEq, eq_comm]
  | succ fuel ih =>
    cases bytes with
    | nil => rw [decodeFrom, encodeChars_eq_nil_iff, Except.ok.injEq, eq_comm]
    | cons first bytes =>
      -- A character takes a byte at least, so the fuel is enough for what is left.
      have hshorter : ∀ {c rest}, encodeChar c ++ rest = first :: bytes → rest.length ≤ fuel := by
        intro c rest h
        have hlength := congrArg List.length h
        have hpos := length_encodeChar_pos c
        rw [List.length_append, List.length_cons] at hlength
        rw [List.length_cons] at hfuel
        omega
      simp only [decodeFrom, bind_eq_ok_iff, pure_eq_ok_iff]
      constructor
      · rintro ⟨⟨n, rest⟩, hfirst, others, hothers, rfl⟩
        obtain ⟨c, rfl, hbytes⟩ := exists_char_of_decodeFirst hfirst
        rw [Char.ofNat_toNat, encodeChars, List.flatMap_cons, ← hbytes]
        exact congrArg _ ((ih (hshorter hbytes)).1 hothers)
      · intro h
        cases cs with
        | nil => cases h
        | cons c others =>
          have hbytes : encodeChar c ++ encodeChars others = first :: bytes := h
          exact ⟨_, decodeFirst_of_encodeChar hbytes, others, (ih (hshorter hbytes)).2 rfl,
            by rw [Char.ofNat_toNat]⟩

/-- The reader takes exactly what the writer makes. -/
theorem decode_eq_ok_iff {bytes : List UInt8} {s : String} :
    decode bytes = .ok s ↔ encode s = bytes := by
  rw [decode, decodeChars, map_eq_ok_iff, encode]
  simp only [decodeFrom_eq_ok_iff (Nat.le_refl _)]
  constructor
  · rintro ⟨cs, h, rfl⟩
    rwa [String.toList_ofList]
  · intro h
    exact ⟨s.toList, h, String.ofList_toList⟩

end VerifiedLedger.Utf8
