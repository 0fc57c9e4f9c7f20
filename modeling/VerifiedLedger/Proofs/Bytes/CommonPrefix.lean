import VerifiedLedger.Proofs.Bytes.BitViews
/-! # Bits that two keys share

Bytes are compared one by one, and in the first pair that differs the zeros above the highest
differing bit are counted. That is the length of the longest beginning that the two paths have in
common: below it they take the same turns, and there they part, unless the keys are the same.
-/
namespace VerifiedLedger

section Sequences
variable {α : Type} {xs ys : List α} {i n : ℕ}

/-- The lengths of what both sequences begin with. -/
def commonLengths (xs ys : List α) : Set ℕ :=
  {n | ∃ common, common <+: xs ∧ common <+: ys ∧ common.length = n}

theorem commonLengths_comm (xs ys : List α) : commonLengths xs ys = commonLengths ys xs :=
  Set.ext fun _ => exists_congr fun _ => and_left_comm

theorem mem_commonLengths_iff :
    n ∈ commonLengths xs ys ↔ n ≤ xs.length ∧ xs.take n = ys.take n := by
  constructor
  · rintro ⟨common, hx, hy, rfl⟩
    exact ⟨hx.length_le, (List.prefix_iff_eq_take.1 hx).symm.trans (List.prefix_iff_eq_take.1 hy)⟩
  · rintro ⟨hn, htake⟩
    refine ⟨xs.take n, List.take_prefix n xs, ?_, List.length_take_of_le hn⟩
    rw [htake]
    exact List.take_prefix n ys

theorem getElem?_eq_of_mem_commonLengths (h : n ∈ commonLengths xs ys) (hi : i < n) :
    xs[i]? = ys[i]? := by
  rw [← List.getElem?_take_of_lt hi, (mem_commonLengths_iff.1 h).2, List.getElem?_take_of_lt hi]

/-- Where the longest common beginning ends, the sequences differ. -/
theorem getElem?_ne_of_isGreatest (h : IsGreatest (commonLengths xs ys) n) (hn : n < xs.length) :
    xs[n]? ≠ ys[n]? := by
  intro hsame
  have hlonger : n + 1 ∈ commonLengths xs ys := by
    refine mem_commonLengths_iff.2 ⟨hn, ?_⟩
    rw [List.take_add_one, List.take_add_one, (mem_commonLengths_iff.1 h.1).2, hsame]
  exact Nat.not_succ_le_self n (h.2 hlonger)

theorem eq_length_iff_of_isGreatest (hlength : xs.length = ys.length)
    (h : IsGreatest (commonLengths xs ys) n) : n = xs.length ↔ xs = ys := by
  obtain ⟨hn, htake⟩ := mem_commonLengths_iff.1 h.1
  constructor
  · rintro rfl
    rwa [List.take_length, hlength, List.take_length] at htake
  · rintro rfl
    exact hn.antisymm (h.2 (mem_commonLengths_iff.2 ⟨le_rfl, rfl⟩))

end Sequences

theorem commonPrefixBits_le (as bs : List UInt8) : commonPrefixBits as bs ≤ 8 * as.length := by
  fun_induction commonPrefixBits as bs with
  | case1 a as bs ih =>
    rw [List.length_cons]
    omega
  | case2 a as b bs hab =>
    have hbyte : byteLeadingZeros (a ^^^ b) ≤ 8 := by
      rw [byteLeadingZeros]
      split <;> omega
    rw [List.length_cons]
    omega
  | case3 => exact Nat.zero_le _

/-- Two byte strings share as many bits as the longest beginning of both paths has turns. -/
theorem isGreatest_commonPrefixBits {as bs : List UInt8} (hlength : as.length = bs.length) :
    IsGreatest (commonLengths (BitPath.ofBytes as).toList (BitPath.ofBytes bs).toList)
      (commonPrefixBits as bs) := by
  have hcapacity : (BitPath.ofBytes as).toList.length = 8 * as.length := length_flatMap_byteBits as
  constructor
  · have hle := commonPrefixBits_le as bs
    refine mem_commonLengths_iff.2 ⟨hle.trans_eq hcapacity.symm, ?_⟩
    exact (le_commonPrefixBits_iff hlength hle).1 le_rfl
  · intro n hn
    obtain ⟨hle, htake⟩ := mem_commonLengths_iff.1 hn
    exact (le_commonPrefixBits_iff hlength (hle.trans_eq hcapacity)).2 htake

namespace BitPath

/-- Positions are the same in all walks, so that the bits decide how far two of them agree. -/
theorem commonLengths_bits (p q : BitPath) :
    commonLengths p.bits q.bits = commonLengths p.toList q.toList := by
  ext n
  have hlength : p.bits.length = p.toList.length := by rw [← snd_bits p, List.length_map]
  rw [mem_commonLengths_iff, mem_commonLengths_iff, take_bits, take_bits, bits_inj, mk.injEq,
    hlength]

end BitPath

namespace Digest

/-- How the walks along two paths relate if they begin with the same `n` turns and no more. -/
structure PartAt (a b : Digest) (n : ℕ) : Prop where
  isGreatest : IsGreatest (commonLengths a.path.bits b.path.bits) n
  agree : ∀ i < n, ∃ bit, (i, bit) ∈ a.path.bits ∧ (i, bit) ∈ b.path.bits
  differ : n < 256 → ∃ bit, (n, bit) ∈ a.path.bits ∧ (n, !bit) ∈ b.path.bits
  eq_iff : n = 256 ↔ a = b

theorem partAt_of_isGreatest {a b : Digest} {n : ℕ}
    (h : IsGreatest (commonLengths a.path.toList b.path.toList) n) : PartAt a b n := by
  have hn : n ≤ 256 := (mem_commonLengths_iff.1 h.1).1.trans_eq a.length_path
  have hpaths := a.length_path.trans b.length_path.symm
  refine ⟨by rwa [BitPath.commonLengths_bits], ?_, ?_, ?_⟩
  · intro i hi
    have ha : i < a.path.toList.length := hi.trans_le (hn.trans_eq a.length_path.symm)
    have hsame := getElem?_eq_of_mem_commonLengths h.1 hi
    rw [List.getElem?_eq_getElem ha] at hsame
    exact ⟨a.path.toList[i], BitPath.getElem_mem_bits ha, BitPath.mem_bits_iff.2 hsame.symm⟩
  · intro hless
    have ha : n < a.path.toList.length := hless.trans_eq a.length_path.symm
    have hb : n < b.path.toList.length := hless.trans_eq b.length_path.symm
    have hdiffer := getElem?_ne_of_isGreatest h ha
    rw [List.getElem?_eq_getElem ha, List.getElem?_eq_getElem hb, ne_eq, Option.some.injEq,
      ← ne_eq, ne_comm, ← Bool.eq_not] at hdiffer
    refine ⟨a.path.toList[n], BitPath.getElem_mem_bits ha, ?_⟩
    rw [← hdiffer]
    exact BitPath.getElem_mem_bits hb
  · rw [← a.length_path, eq_length_iff_of_isGreatest hpaths h]
    exact ⟨eq_of_path_eq, fun hab => by rw [hab]⟩

/-- The bits that two keys are said to share are those that their paths begin with. -/
theorem commonPrefixBits_partAt (a b : Digest) :
    a.commonPrefixBits b = b.commonPrefixBits a ∧ PartAt a b (a.commonPrefixBits b) := by
  have hab := isGreatest_commonPrefixBits (a.length_toList.trans b.length_toList.symm)
  have hba := isGreatest_commonPrefixBits (b.length_toList.trans a.length_toList.symm)
  refine ⟨hab.unique ?_, partAt_of_isGreatest hab⟩
  rw [commonLengths_comm]
  exact hba

/-- A key whose path leaves that of the zero key in the second byte. -/
def eleventhTurn : Digest := ⟨.padded [0x00, 0x20]⟩

theorem commonPrefixBits_partAt_eleventhTurn :
    zero.commonPrefixBits eleventhTurn = 10 ∧ PartAt zero eleventhTurn 10 ∧
      ∃ bit, (10, bit) ∈ zero.path.bits ∧ (10, !bit) ∈ eleventhTurn.path.bits := by
  have hcount : zero.commonPrefixBits eleventhTurn = 10 := by decide +kernel
  obtain ⟨-, hpart⟩ := commonPrefixBits_partAt zero eleventhTurn
  rw [hcount] at hpart
  exact ⟨hcount, hpart, hpart.differ (by decide)⟩

end Digest
end VerifiedLedger
