import Mathlib.Data.Nat.Bitwise
import VerifiedLedger.Hash.Digest
/-! # Paths tell keys apart

A byte is given back by its eight bits, and a key by its 256 turns. Two keys share as many bits as
their paths have turns in common.
-/
namespace VerifiedLedger

theorem length_byteBits (b : UInt8) : (byteBits b).length = 8 := by
  simp [byteBits]

theorem byteBits_injective : Function.Injective byteBits := by
  intro a b h
  apply UInt8.toNat_inj.1
  apply Nat.eq_of_testBit_eq
  intro i
  by_cases hi : i < 8
  · have hbit := congrArg (·[7 - i]?) h
    simpa [byteBits, show 7 - i < 8 by omega, show 7 - (7 - i) = i by omega] using hbit
  · have hlow : ∀ c : UInt8, c.toNat.testBit i = false := fun c =>
      Nat.testBit_lt_two_pow (c.toNat_lt.trans_le (Nat.pow_le_pow_right Nat.two_pos (by omega)))
    rw [hlow, hlow]

theorem length_flatMap_byteBits (bytes : List UInt8) :
    (bytes.flatMap byteBits).length = 8 * bytes.length := by
  induction bytes with
  | nil => rfl
  | cons b bs ih =>
    rw [List.flatMap_cons, List.length_append, length_byteBits, ih, List.length_cons]
    omega

theorem eq_of_flatMap_byteBits_eq {as bs : List UInt8}
    (h : as.flatMap byteBits = bs.flatMap byteBits) : as = bs := by
  have hlength : as.length = bs.length := by
    have hbits := congrArg List.length h
    rw [length_flatMap_byteBits, length_flatMap_byteBits] at hbits
    omega
  induction as generalizing bs with
  | nil => exact (List.eq_nil_of_length_eq_zero hlength.symm).symm
  | cons a as ih =>
    cases bs with
    | nil => cases hlength
    | cons b bs =>
      rw [List.flatMap_cons, List.flatMap_cons] at h
      have hbyte : (byteBits a).length = (byteBits b).length := by
        rw [length_byteBits, length_byteBits]
      obtain ⟨hhead, htail⟩ := List.append_inj h hbyte
      rw [byteBits_injective hhead, ih htail (Nat.succ_inj.1 hlength)]

theorem take_byteBits_eq_iff {a b : UInt8} {n : ℕ} :
    (byteBits a).take n = (byteBits b).take n ↔
      ∀ i < min n 8, a.toNat.testBit (7 - i) = b.toNat.testBit (7 - i) := by
  rw [byteBits, byteBits, ← List.map_take, ← List.map_take, List.take_range, List.map_inj_left]
  simp only [List.mem_range]

/-- The highest bit in which two bytes differ is the first one in which their paths part. -/
theorem le_byteLeadingZeros_iff {a b : UInt8} (hne : a ≠ b) {n : ℕ} :
    n ≤ byteLeadingZeros (a ^^^ b) ↔ (byteBits a).take n = (byteBits b).take n := by
  have hxor : a ^^^ b ≠ 0 := fun h => hne (UInt8.xor_eq_zero_iff.1 h)
  have hnat : a.toNat ^^^ b.toNat ≠ 0 := by
    rw [← UInt8.toNat_xor]
    exact fun h => hxor (UInt8.toNat_inj.1 h)
  have hlow : (a.toNat ^^^ b.toNat).log2 < 8 :=
    (Nat.log2_lt hnat).2 (Nat.xor_lt_two_pow a.toNat_lt b.toNat_lt)
  have hdiffers := Nat.testBit_log2 hnat
  rw [Nat.testBit_xor, bne_iff_ne] at hdiffers
  rw [byteLeadingZeros, if_neg hxor, UInt8.toNat_xor, take_byteBits_eq_iff]
  constructor
  · intro hn i hi
    have hhigh : (a.toNat ^^^ b.toNat).testBit (7 - i) = false :=
      Nat.testBit_lt_two_pow ((Nat.log2_lt hnat).1 (by omega))
    rwa [Nat.testBit_xor, bne_eq_false_iff_eq] at hhigh
  · intro hagree
    by_contra hn
    have hsame := hagree (7 - (a.toNat ^^^ b.toNat).log2) (by omega)
    rw [Nat.sub_sub_self (by omega)] at hsame
    exact hdiffers hsame

/-- Two byte strings share that many bits exactly if the first bits of their paths are the same. -/
theorem le_commonPrefixBits_iff {as bs : List UInt8} (hlength : as.length = bs.length) {n : ℕ}
    (hn : n ≤ 8 * as.length) :
    n ≤ commonPrefixBits as bs ↔
      (as.flatMap byteBits).take n = (bs.flatMap byteBits).take n := by
  induction as generalizing bs n with
  | nil =>
    obtain rfl := Nat.le_zero.1 hn
    simp
  | cons a as ih =>
    cases bs with
    | nil => cases hlength
    | cons b bs =>
      rw [List.length_cons] at hn
      have hrest := ih (Nat.succ.inj hlength) (n := n - 8) (by omega)
      have hbytes : ((byteBits a).take n).length = ((byteBits b).take n).length := by
        rw [List.length_take, List.length_take, length_byteBits, length_byteBits]
      rw [List.flatMap_cons, List.flatMap_cons, List.take_append, List.take_append,
        length_byteBits, length_byteBits]
      by_cases hab : a = b
      · subst hab
        rw [commonPrefixBits, if_pos rfl, List.append_cancel_left_eq, ← hrest]
        omega
      · have hbound : byteLeadingZeros (a ^^^ b) < 8 := by
          rw [byteLeadingZeros, if_neg fun h => hab (UInt8.xor_eq_zero_iff.1 h)]
          omega
        rw [commonPrefixBits, if_neg hab]
        constructor
        · intro h
          rw [(le_byteLeadingZeros_iff hab).1 h, show n - 8 = 0 by omega, List.take_zero,
            List.take_zero]
        · intro h
          exact (le_byteLeadingZeros_iff hab).2 (List.append_inj_left h hbytes)

namespace Digest

theorem length_path (d : Digest) : d.path.toList.length = 256 := by
  rw [path, BitPath.ofBytes, length_flatMap_byteBits, d.length_toList]

theorem eq_of_path_eq {a b : Digest} (h : a.path.toList = b.path.toList) : a = b :=
  toList_inj.1 (eq_of_flatMap_byteBits_eq h)

theorem le_commonPrefixBits_iff {a b : Digest} {n : ℕ} (hn : n ≤ 256) :
    n ≤ a.commonPrefixBits b ↔ a.path.toList.take n = b.path.toList.take n := by
  have hlength : a.toList.length = b.toList.length := a.length_toList.trans b.length_toList.symm
  exact VerifiedLedger.le_commonPrefixBits_iff hlength (by rw [a.length_toList]; exact hn)

end Digest
end VerifiedLedger
