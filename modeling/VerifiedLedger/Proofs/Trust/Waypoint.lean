import Mathlib.Data.Nat.Digits.Defs
import VerifiedLedger.Trust.Waypoint
import VerifiedLedger.Proofs.Bytes.Hex
import VerifiedLedger.Proofs.Bytes.Utf8
import VerifiedLedger.Proofs.Text.Decimal
import VerifiedLedger.Proofs.Format.ReadBack
/-! # Waypoints as text

The text of a waypoint is read back: no digit of the version is a colon, and the rest is a digest in
64 digits.
-/
namespace VerifiedLedger.Waypoint

theorem splitAtColon_append {before after : List Char} (h : ':' ∉ before) :
    splitAtColon (before ++ ':' :: after) = some (before, after) := by
  induction before with
  | nil => rfl
  | cons c before ih =>
    rw [List.mem_cons, not_or] at h
    rw [List.cons_append, splitAtColon, if_neg (Ne.symm h.1), ih h.2]
    rfl

theorem toList_toText (w : Waypoint) :
    w.toText.toList = (toString w.version.toNat).toList ++ ':' :: w.value.toHex.toList := by
  rw [toText, String.toList_append, String.toList_append, List.append_assoc]
  rfl

theorem length_utf8_toHex (d : Digest) : (Utf8.encodeChars d.toHex.toList).length = 64 := by
  have hdouble := Hex.length_utf8_encode d.toList
  rwa [d.length_toList] at hdouble

theorem readHash_toHex (d : Digest) : readHash d.toHex.toList = .ok d := by
  simp only [readHash, length_utf8_toHex, ne_eq, not_true_eq_false, if_false, String.ofList_toList,
    Digest.ofHex_toHex]

theorem colon_not_mem_toString (n : ℕ) : ':' ∉ (toString n).toList :=
  fun hcolon => nomatch Decimal.isDigit_of_mem_toString hcolon

theorem ofText_toText (w : Waypoint) : ofText w.toText = .ok w := by
  simp only [ofText, toList_toText, splitAtColon_append (colon_not_mem_toString _),
    Decimal.read_toString w.version.toNat_lt, readHash_toHex, UInt64.ofNat_toNat]

/-- At most twenty digits, a colon and 64 digits. -/
theorem length_utf8_toText (w : Waypoint) : (Utf8.encode w.toText).length ≤ 145 := by
  have hdigits : (toString w.version.toNat).toList.length ≤ 20 := by
    rw [Nat.toString_eq_ofList_toDigits, String.toList_ofList]
    exact Nat.toDigits_length 10 _ 20 (by decide) (Nat.lt_trans w.version.toNat_lt (by decide))
  have hversion := Utf8.length_encodeChars_le (toString w.version.toNat).toList
  have hhash := length_utf8_toHex w.value
  have hcolon : (Utf8.encodeChar ':').length = 1 := by decide
  have htext : Utf8.encode w.toText = Utf8.encodeChars (toString w.version.toNat).toList ++
      (Utf8.encodeChar ':' ++ Utf8.encodeChars w.value.toHex.toList) := by
    rw [Utf8.encode, toList_toText, Utf8.encodeChars, List.flatMap_append, List.flatMap_cons]
    rfl
  rw [htext, List.length_append, List.length_append]
  omega

theorem readsBack (w : Waypoint) : Waypoint.format.ReadsBack w := by
  have hlength : (Utf8.encode w.toText).length < UInt64.size :=
    Nat.lt_of_le_of_lt (length_utf8_toText w) (by decide)
  refine .refine ?_ (Format.readsBack_text hlength)
  rw [ofText_toText]

end VerifiedLedger.Waypoint
