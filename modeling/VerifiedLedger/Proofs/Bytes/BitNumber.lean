import Mathlib.Data.List.Basic
import Mathlib.Data.List.Induction
import Mathlib.Data.Nat.Size
import Mathlib.Order.Bounds.Defs
import VerifiedLedger.Proofs.Bits
import VerifiedLedger.Proofs.Bytes.BitPath
import VerifiedLedger.Proofs.Bytes.LittleEndian
/-! # Bits as numbers and as bytes

Bits read as a number, the first one most significant, tell lists of one length apart. Zeros in
front do not count for the number, so that it is the other bits that a word stands for.
-/
namespace VerifiedLedger
namespace Bits
variable {as bs bits : List Bool} {b : Bool} {n : ℕ}

/-- The number that the bits write, the first one most significant. -/
def number (bits : List Bool) : ℕ := bits.foldl (fun n b => 2 * n + b.toNat) 0

theorem number_concat (bits : List Bool) (b : Bool) :
    number (bits ++ [b]) = 2 * number bits + b.toNat := by
  rw [number, List.foldl_append]
  rfl

theorem number_append (as bs : List Bool) :
    number (as ++ bs) = 2 ^ bs.length * number as + number bs := by
  induction bs using List.reverseRecOn with
  | nil => simp [number]
  | append_singleton bs b ih =>
    rw [← List.append_assoc, number_concat, number_concat, ih, List.length_append,
      List.length_singleton]
    ring

theorem number_zeros (n : ℕ) : number (List.replicate n false) = 0 := by
  induction n with
  | zero => rfl
  | succ n ih => rw [List.replicate_succ', number_concat, ih, Bool.toNat_false]

theorem number_zeros_append (n : ℕ) (bits : List Bool) :
    number (List.replicate n false ++ bits) = number bits := by
  rw [number_append, number_zeros, Nat.mul_zero, Nat.zero_add]

theorem number_lt (bits : List Bool) : number bits < 2 ^ bits.length := by
  induction bits using List.reverseRecOn with
  | nil => decide
  | append_singleton bits b ih =>
    have hb := b.toNat_le
    rw [number_concat, List.length_append, List.length_singleton, Nat.pow_succ]
    omega

theorem eq_of_number_eq (hlength : as.length = bs.length) (h : number as = number bs) :
    as = bs := by
  induction as using List.reverseRecOn generalizing bs with
  | nil => exact (List.eq_nil_of_length_eq_zero hlength.symm).symm
  | append_singleton as a ih =>
    obtain rfl | ⟨bs, b, rfl⟩ := bs.eq_nil_or_concat'
    · simp at hlength
    · rw [List.length_append, List.length_append, List.length_singleton, List.length_singleton,
        Nat.add_right_cancel_iff] at hlength
      rw [number_concat, number_concat] at h
      have ha := a.toNat_le
      have hb := b.toNat_le
      have hvalue : a.toNat = b.toNat := by omega
      have hlast : a = b := by
        rw [Bool.eq_iff_iff, ← Bool.toNat_eq_one, ← Bool.toNat_eq_one, hvalue]
      rw [ih hlength (by omega), hlast]

theorem ones_number (bits : List Bool) : ones (number bits) = bits.count true := by
  induction bits using List.reverseRecOn with
  | nil => exact ones_zero
  | append_singleton bits b ih =>
    rw [number_concat, List.count_append]
    cases b with
    | false => rw [Bool.toNat_false, Nat.add_zero, ones_double, ih]; rfl
    | true => rw [Bool.toNat_true, ones_double_add_one, ih]; rfl

theorem eq_nil_or_cons_true (h : bits.head? ≠ some false) :
    bits = [] ∨ ∃ later, bits = true :: later := by
  cases bits with
  | nil => exact .inl rfl
  | cons b later =>
    cases b with
    | false => exact absurd rfl h
    | true => exact .inr ⟨later, rfl⟩

/-- A number has as many digits as the bits that write it, if the first of them is a one. -/
theorem size_number (h : bits.head? ≠ some false) : (number bits).size = bits.length := by
  obtain rfl | ⟨later, rfl⟩ := eq_nil_or_cons_true h
  · exact Nat.size_zero
  · apply Nat.le_antisymm
    · exact Nat.size_le.2 (number_lt (true :: later))
    · rw [List.length_cons, Nat.succ_le_iff, Nat.lt_size, ← List.singleton_append, number_append]
      have hone : number [true] = 1 := rfl
      rw [hone, Nat.mul_one]
      exact Nat.le_add_right _ _

/-- Bits are zeros and what comes after them. -/
theorem exists_zeros_append (bits : List Bool) :
    ∃ n rest, bits = List.replicate n false ++ rest ∧ rest.head? ≠ some false := by
  induction bits with
  | nil => exact ⟨0, [], rfl, nofun⟩
  | cons b bits ih =>
    cases b with
    | false =>
      obtain ⟨n, rest, rfl, hrest⟩ := ih
      exact ⟨n + 1, rest, rfl, hrest⟩
    | true => exact ⟨0, true :: bits, rfl, nofun⟩

theorem exists_append_zeros (bits : List Bool) :
    ∃ n rest, bits = rest ++ List.replicate n false ∧ rest.getLast? ≠ some false := by
  obtain ⟨n, rest, h, hrest⟩ := exists_zeros_append bits.reverse
  refine ⟨n, rest.reverse, ?_, ?_⟩
  · rw [← List.reverse_inj, h, List.reverse_append, List.reverse_reverse, List.reverse_replicate]
  · rwa [List.getLast?_reverse]

end Bits

namespace BitPath
open Bits (number)
variable {rest : List Bool} {bytes : List UInt8} {i n : ℕ}

theorem leadingZeros_zeros_append (n : ℕ) (hrest : rest.head? ≠ some false) :
    leadingZeros ⟨List.replicate n false ++ rest⟩ = n := by
  have hzeros : ∀ b ∈ List.replicate n false, (b == false) = true := by
    intro b hb
    rw [List.eq_of_mem_replicate hb]
    rfl
  have hone : rest.takeWhile (· == false) = [] := by
    cases rest with
    | nil => rfl
    | cons b rest =>
      refine List.takeWhile_cons_of_neg fun hb => hrest ?_
      rw [List.head?_cons, eq_of_beq hb]
  rw [leadingZeros, List.takeWhile_append_of_pos hzeros, hone, List.append_nil,
    List.length_replicate]

theorem trailingZeros_append_zeros (n : ℕ) (hrest : rest.getLast? ≠ some false) :
    trailingZeros ⟨rest ++ List.replicate n false⟩ = n := by
  have hreverse : (rest ++ List.replicate n false).reverse =
      List.replicate n false ++ rest.reverse := by
    rw [List.reverse_append, List.reverse_replicate]
  rw [← List.head?_reverse] at hrest
  rw [trailingZeros, hreverse]
  exact leadingZeros_zeros_append n hrest

section Words

theorem number_byteBits (b : UInt8) : number (byteBits b) = b.toNat := by
  have hbytes : ∀ k < 256, number (byteBits (UInt8.ofNat k)) = k := by decide +kernel
  have hb := hbytes b.toNat b.toNat_lt
  rwa [UInt8.ofNat_toNat] at hb

theorem number_flatMap_byteBits (bytes : List UInt8) :
    number (bytes.flatMap byteBits) = Bytes.ofLittleEndian bytes.reverse := by
  induction bytes using List.reverseRecOn with
  | nil => rfl
  | append_singleton bytes b ih =>
    have hwidth : 2 ^ (byteBits b).length = 256 := by rw [length_byteBits]; rfl
    rw [List.flatMap_append, List.flatMap_singleton, Bits.number_append, hwidth, ih,
      number_byteBits, List.reverse_append, List.reverse_singleton, List.singleton_append,
      Bytes.ofLittleEndian, Nat.add_comm]

theorem length_ofIndex (index : UInt64) : (ofIndex index).toList.length = 64 := by
  rw [ofIndex, ofBytes, length_flatMap_byteBits, Bytes.length_bigEndian]

theorem number_ofIndex (index : UInt64) : number (ofIndex index).toList = index.toNat := by
  rw [ofIndex, ofBytes, number_flatMap_byteBits, Bytes.bigEndian, List.reverse_reverse,
    Bytes.ofLittleEndian_littleEndian]
  exact Nat.mod_eq_of_lt index.toNat_lt

end Words

section Bytes

/-- Whether the bytes have that bit, counted from the most significant one of the first byte. -/
def bitAt (bytes : List UInt8) (i : ℕ) : Bool :=
  bytes[i / 8]?.any fun b => b.toNat.testBit (7 - i % 8)

/-- The bytes with these bits. -/
def bytesOf (count : ℕ) (bit : ℕ → Bool) : List UInt8 :=
  (List.range count).map fun j =>
    UInt8.ofNat (number ((List.range 8).map fun k => bit (8 * j + k)))

theorem flatMap_byteBits_eq (bytes : List UInt8) :
    bytes.flatMap byteBits = (List.range (8 * bytes.length)).map (bitAt bytes) := by
  induction bytes with
  | nil => rfl
  | cons b bytes ih =>
    have hrest : ∀ i ∈ List.range (8 * bytes.length), bitAt bytes i = bitAt (b :: bytes) (8 + i) := by
      intro i _
      rw [bitAt, bitAt, Nat.add_div_left i (by decide), Nat.add_mod_left, List.getElem?_cons_succ]
    have hfirst : ∀ i ∈ List.range 8, b.toNat.testBit (7 - i) = bitAt (b :: bytes) i := by
      intro i hi
      rw [List.mem_range] at hi
      rw [bitAt, Nat.div_eq_of_lt hi, Nat.mod_eq_of_lt hi]
      rfl
    rw [List.flatMap_cons, ih, List.length_cons, Nat.mul_succ, Nat.add_comm, List.range_add,
      List.map_append, List.map_map, byteBits, List.map_inj_left.2 hfirst]
    exact congrArg _ (List.map_inj_left.2 hrest)

theorem byteBits_ofNat_number {bits : List Bool} (h : bits.length = 8) :
    byteBits (UInt8.ofNat (number bits)) = bits := by
  have hlt := Bits.number_lt bits
  rw [h] at hlt
  apply Bits.eq_of_number_eq
  · rw [length_byteBits, h]
  · rw [number_byteBits, UInt8.toNat_ofNat_of_lt' hlt]

theorem flatMap_byteBits_bytesOf (count : ℕ) (bit : ℕ → Bool) :
    (bytesOf count bit).flatMap byteBits = (List.range (8 * count)).map bit := by
  induction count with
  | zero => rfl
  | succ count ih =>
    rw [bytesOf, List.range_succ (n := count), List.map_append, List.flatMap_append, Nat.mul_succ,
      List.range_add, List.map_append, List.map_map, List.map_singleton, List.flatMap_singleton,
      byteBits_ofNat_number (by simp)]
    exact congrArg (· ++ _) ih

theorem ones_ofBytes (bytes : List UInt8) :
    (ofBytes bytes).ones = (bytes.map fun b => Bits.ones b.toNat).sum := by
  rw [ones, ofBytes]
  induction bytes with
  | nil => rfl
  | cons b bytes ih =>
    rw [List.flatMap_cons, List.count_append, ih, List.map_cons, List.sum_cons,
      ← Bits.ones_number, number_byteBits]

theorem bitAt_eq_true_iff : bitAt bytes i = true ↔ (bytes.flatMap byteBits)[i]? = some true := by
  rw [flatMap_byteBits_eq, List.getElem?_map]
  rcases Nat.lt_or_ge i (8 * bytes.length) with hi | hi
  · rw [List.getElem?_range hi, Option.map_some, Option.some.injEq]
  · have hbyte : bytes[i / 8]? = none := List.getElem?_eq_none (by omega)
    have hbit : (List.range (8 * bytes.length))[i]? = none :=
      List.getElem?_eq_none (by rwa [List.length_range])
    rw [bitAt, hbyte, hbit]
    exact ⟨nofun, nofun⟩

theorem isGreatest_bitAt (h : bytes.flatMap byteBits = rest ++ true :: List.replicate n false) :
    IsGreatest {i | bitAt bytes i = true} rest.length := by
  constructor
  · rw [Set.mem_ofPred_eq, bitAt_eq_true_iff, h, List.getElem?_append_right (Nat.le_refl _),
      Nat.sub_self, List.getElem?_cons_zero]
  · intro i hi
    rw [Set.mem_ofPred_eq, bitAt_eq_true_iff, h] at hi
    by_contra hlater
    rw [Nat.not_le] at hlater
    obtain ⟨k, hk⟩ : ∃ k, i - rest.length = k + 1 := ⟨i - rest.length - 1, by omega⟩
    rw [List.getElem?_append_right hlater.le, hk, List.getElem?_cons_succ] at hi
    cases List.eq_of_mem_replicate (List.mem_of_getElem? hi)

/-- The last byte has a one exactly if fewer than eight zeros come after the last one. -/
theorem trailingZeros_ofBytes_lt_iff :
    (ofBytes bytes).trailingZeros < 8 ↔ bytes.getLast? ≠ some 0 := by
  have hzero : byteBits 0 = List.replicate 8 false := by decide
  constructor
  · intro hlt hlast
    obtain ⟨before, rfl⟩ := List.getLast?_eq_some_iff.1 hlast
    obtain ⟨n, rest, hbits, hrest⟩ := Bits.exists_append_zeros (before.flatMap byteBits)
    rw [ofBytes, List.flatMap_append, List.flatMap_singleton, hzero, hbits, List.append_assoc,
      ← List.replicate_add, trailingZeros_append_zeros (n + 8) hrest] at hlt
    omega
  · intro hlast
    obtain ⟨n, rest, hbits, hrest⟩ := Bits.exists_append_zeros (bytes.flatMap byteBits)
    rw [ofBytes, hbits, trailingZeros_append_zeros n hrest]
    by_contra hlarge
    rw [← Nat.sub_add_cancel (Nat.not_lt.1 hlarge), List.replicate_add, ← List.append_assoc] at hbits
    rcases bytes.eq_nil_or_concat' with rfl | ⟨before, b, rfl⟩
    · simp at hbits
    · rw [List.flatMap_append, List.flatMap_singleton] at hbits
      have hlength : (byteBits b).length = (List.replicate 8 false).length := by
        rw [length_byteBits, List.length_replicate]
      have hbyte := (List.append_inj' hbits hlength).2
      rw [← hzero] at hbyte
      rw [List.getLast?_concat, byteBits_injective hbyte] at hlast
      exact hlast rfl

end Bytes

end BitPath
end VerifiedLedger
