import Mathlib.Algebra.BigOperators.Ring.List
import Mathlib.Data.Set.Card
import VerifiedLedger.Proofs.Bytes.BitNumber
/-! # Views of a bit path

A walk from the front and a walk from the back list the same bits, each at its position in that
walk. Looking a bit up, counting the ones and counting the zeros at either end agree with the walks.
From the back a bit stands at its place in the number that all of them write, so that the bits of a
word add up to the word.
-/
namespace VerifiedLedger

namespace Bits

/-- Counted from the end, the bits are those of the number. -/
theorem testBit_number (bits : List Bool) (i : ℕ) :
    (number bits).testBit i = bits.reverse.getD i false := by
  induction bits using List.reverseRecOn generalizing i with
  | nil => exact Nat.zero_testBit i
  | append_singleton bits b ih =>
    have hb := b.toNat_le
    rw [number_concat, List.reverse_concat]
    cases i with
    | zero => cases b <;> simp [Nat.testBit_zero]
    | succ i =>
      have hhalf : (2 * number bits + b.toNat) / 2 = number bits := by omega
      rw [Nat.testBit_succ, hhalf, ih, List.getD_cons_succ]

theorem reverse_eq_testBit (bits : List Bool) :
    bits.reverse = (List.range bits.length).map (number bits).testBit := by
  apply List.ext_getElem
  · rw [List.length_reverse, List.length_map, List.length_range]
  · intro i hi _
    rw [List.getElem_map, List.getElem_range, testBit_number, List.getD_eq_getElem _ _ hi]

/-- A one adds the power of two of its place, counted from the end. -/
theorem sum_places (bits : List Bool) :
    (bits.reverse.zipIdx.map fun (b, i) => b.toNat * 2 ^ i).sum = number bits := by
  induction bits using List.reverseRecOn with
  | nil => rfl
  | append_singleton bits b ih =>
    have hshift : ∀ c : Bool, ∀ i, c.toNat * 2 ^ (i + 1) = 2 * (c.toNat * 2 ^ i) := by
      intro c i
      ring
    calc ((bits ++ [b]).reverse.zipIdx.map fun (c, i) => c.toNat * 2 ^ i).sum
        = b.toNat * 2 ^ 0 + (bits.reverse.zipIdx.map fun (c, i) => c.toNat * 2 ^ (i + 1)).sum := by
          rw [List.reverse_concat, List.zipIdx_cons, List.zipIdx_succ, List.map_cons, List.map_map]
          rfl
      _ = b.toNat + (bits.reverse.zipIdx.map fun (c, i) => 2 * (c.toNat * 2 ^ i)).sum := by
          simp only [hshift, Nat.pow_zero, Nat.mul_one]
      _ = 2 * number bits + b.toNat := by
          rw [← ih, ← List.sum_map_mul_left, Nat.add_comm]
      _ = number (bits ++ [b]) := (number_concat bits b).symm

end Bits

namespace BitPath
open Bits (number)
variable {p : BitPath} {bytes : List UInt8} {i : ℕ} {b : Bool}

/-- The positions at which a walk lists a one. -/
def onesIn (listed : List (ℕ × Bool)) : Set ℕ := {i | (i, true) ∈ listed}

section Walks

theorem mem_bits_iff : (i, b) ∈ p.bits ↔ p.toList[i]? = some b := by
  rw [← List.mk_mem_zipIdx_iff_getElem?, bits, List.mem_map]
  constructor
  · rintro ⟨⟨c, j⟩, hlisted, heq⟩
    cases heq
    exact hlisted
  · intro hlisted
    exact ⟨(b, i), hlisted, rfl⟩

theorem getElem_mem_bits (h : i < p.toList.length) : (i, p.toList[i]) ∈ p.bits :=
  mem_bits_iff.2 (List.getElem?_eq_getElem h)

theorem fst_bits (p : BitPath) : p.bits.map Prod.fst = List.range p.capacity := by
  rw [bits, List.map_map, List.range_eq_range']
  exact List.zipIdx_map_snd 0 p.toList

theorem snd_bits (p : BitPath) : p.bits.map Prod.snd = p.toList := by
  rw [bits, List.map_map]
  exact List.zipIdx_map_fst 0 p.toList

theorem bits_inj {p q : BitPath} : p.bits = q.bits ↔ p = q := by
  constructor
  · intro h
    have hbits := congrArg (List.map Prod.snd) h
    rw [snd_bits, snd_bits] at hbits
    exact congrArg mk hbits
  · rintro rfl
    rfl

theorem take_bits (p : BitPath) (n : ℕ) : p.bits.take n = bits ⟨p.toList.take n⟩ := by
  apply List.ext_getElem
  · simp [bits]
  · intro i hi _
    simp [bits]

/-- Walking from the back is walking the reversed path from the front. -/
theorem bitsRev_eq (p : BitPath) : p.bitsRev = bits ⟨p.toList.reverse⟩ := rfl

theorem bits_map_range (n : ℕ) (bit : ℕ → Bool) :
    bits ⟨(List.range n).map bit⟩ = (List.range n).map fun i => (i, bit i) := by
  apply List.ext_getElem
  · rw [bits, List.length_map, List.length_zipIdx, List.length_map, List.length_map]
  · intro i hi _
    simp [bits]

theorem bits_ofBytes (bytes : List UInt8) :
    (ofBytes bytes).bits = (List.range (8 * bytes.length)).map fun i => (i, bitAt bytes i) := by
  rw [ofBytes, flatMap_byteBits_eq, bits_map_range]

theorem bitsRev_eq_testBit (p : BitPath) :
    p.bitsRev = (List.range p.capacity).map fun i => (i, (number p.toList).testBit i) := by
  rw [bitsRev_eq, Bits.reverse_eq_testBit, bits_map_range]
  rfl

theorem sum_bitsRev (p : BitPath) :
    (p.bitsRev.map fun (i, b) => b.toNat * 2 ^ i).sum = number p.toList := by
  rw [bitsRev, List.map_map]
  exact Bits.sum_places p.toList

end Walks

section Counts

theorem ones_eq_ncard (p : BitPath) : p.ones = (onesIn p.bits).ncard := by
  have hlisted : onesIn p.bits = ((p.bits.filter Prod.snd).map Prod.fst).toFinset := by
    ext i
    simp [onesIn]
  have honce : ((p.bits.filter Prod.snd).map Prod.fst).Nodup := by
    have hpositions : (p.bits.map Prod.fst).Nodup := by
      rw [fst_bits]
      exact List.nodup_range
    exact (List.filter_sublist.map Prod.fst).nodup hpositions
  rw [hlisted, Set.ncard_coe_finset, List.toFinset_card_of_nodup honce, List.length_map,
    ← List.countP_eq_length_filter, ones, ← snd_bits, List.count, List.countP_map]
  simp [Function.comp_def]

theorem nonempty_onesIn_iff : (onesIn p.bits).Nonempty ↔ true ∈ p.toList := by
  rw [List.mem_iff_getElem?]
  exact exists_congr fun _ => mem_bits_iff

/-- The zeros in front end where the walk lists its first one. -/
theorem isLeast_leadingZeros (h : (onesIn p.bits).Nonempty) :
    IsLeast (onesIn p.bits) p.leadingZeros := by
  obtain ⟨n, rest, hbits, hrest⟩ := Bits.exists_zeros_append p.toList
  have hzeros : p.leadingZeros = n := by
    rw [leadingZeros, hbits]
    exact leadingZeros_zeros_append n hrest
  have hset := nonempty_onesIn_iff.1 h
  rw [hbits, List.mem_append] at hset
  obtain rfl | ⟨later, rfl⟩ := Bits.eq_nil_or_cons_true hrest
  · simp at hset
  rw [hzeros]
  constructor
  · refine mem_bits_iff.2 ?_
    rw [hbits, List.getElem?_append_right (by simp), List.length_replicate, Nat.sub_self,
      List.getElem?_cons_zero]
  · intro i hi
    by_contra hearlier
    rw [Nat.not_le] at hearlier
    have hzero := mem_bits_iff.1 hi
    rw [hbits, List.getElem?_append_left (by simpa using hearlier), List.getElem?_replicate,
      if_pos hearlier] at hzero
    cases hzero

theorem isLeast_trailingZeros (h : (onesIn p.bits).Nonempty) :
    IsLeast (onesIn p.bitsRev) p.trailingZeros := by
  have hreversed : (onesIn (bits ⟨p.toList.reverse⟩)).Nonempty := by
    rw [nonempty_onesIn_iff, List.mem_reverse]
    exact nonempty_onesIn_iff.1 h
  exact isLeast_leadingZeros hreversed

end Counts

/-- All views of the path show the bits of the bytes, the most significant one first. -/
structure ViewsOf (bytes : List UInt8) (p : BitPath) : Prop where
  capacity_eq : p.capacity = 8 * bytes.length
  bits_eq : p.bits = (List.range p.capacity).map fun i => (i, bitAt bytes i)
  positions_bitsRev : p.bitsRev.map Prod.fst = List.range p.capacity
  bits_bitsRev : p.bitsRev.map Prod.snd = (p.bits.map Prod.snd).reverse
  get?_eq_some_iff : ∀ i b, p.get? i = some b ↔ (i, b) ∈ p.bits
  get?_eq_none_iff : ∀ i, p.get? i = none ↔ p.capacity ≤ i
  ones_eq : p.ones = (onesIn p.bits).ncard
  first_one : (onesIn p.bits).Nonempty → IsLeast (onesIn p.bits) p.leadingZeros
  last_one : (onesIn p.bits).Nonempty → IsLeast (onesIn p.bitsRev) p.trailingZeros

/-- From the back, the bits of the path stand at their places in the word. -/
structure PlacesOf (word : UInt64) (p : BitPath) : Prop where
  bitsRev_eq : p.bitsRev = (List.range 64).map fun i => (i, word.toNat.testBit i)
  sum_eq : (p.bitsRev.map fun (i, b) => b.toNat * 2 ^ i).sum = word.toNat

/-- The path over bytes shows their bits in every view, and the path over a word its places. -/
theorem views_agree :
    (∀ bytes, ViewsOf bytes (ofBytes bytes)) ∧ ∀ word, PlacesOf word (ofIndex word) := by
  constructor
  · intro bytes
    exact {
      capacity_eq := length_flatMap_byteBits bytes
      bits_eq := by rw [bits_ofBytes, capacity, ofBytes, length_flatMap_byteBits]
      positions_bitsRev := by rw [bitsRev_eq, fst_bits, capacity, capacity, List.length_reverse]
      bits_bitsRev := by rw [bitsRev_eq, snd_bits, snd_bits]
      get?_eq_some_iff := fun _ _ => mem_bits_iff.symm
      get?_eq_none_iff := fun _ => List.getElem?_eq_none_iff
      ones_eq := ones_eq_ncard _
      first_one := isLeast_leadingZeros
      last_one := isLeast_trailingZeros }
  · intro word
    have hplaces := bitsRev_eq_testBit (ofIndex word)
    rw [capacity, length_ofIndex, number_ofIndex] at hplaces
    exact ⟨hplaces, (sum_bitsRev (ofIndex word)).trans (number_ofIndex word)⟩

/-- The first byte has no one, so that the counts at both ends are found in the second. -/
theorem views_agree_second_byte :
    (onesIn (ofBytes [0x00, 0x14]).bits).Nonempty ∧
      IsLeast (onesIn (ofBytes [0x00, 0x14]).bits) 11 ∧
      IsLeast (onesIn (ofBytes [0x00, 0x14]).bitsRev) 2 ∧
      (ofIndex 0x14).bitsRev[2]? = some (2, true) := by
  obtain ⟨hbytes, hword⟩ := views_agree
  have hone : (13, true) ∈ (ofBytes [0x00, 0x14]).bits := by decide
  have hset : (onesIn (ofBytes [0x00, 0x14]).bits).Nonempty := ⟨13, hone⟩
  refine ⟨hset, (hbytes [0x00, 0x14]).first_one hset, (hbytes [0x00, 0x14]).last_one hset, ?_⟩
  rw [(hword 0x14).bitsRev_eq]
  decide

end BitPath
end VerifiedLedger
