import VerifiedLedger.Accumulator.LeafProof
import VerifiedLedger.Proofs.Bytes.BitNumber
import VerifiedLedger.Proofs.Checks
import VerifiedLedger.Proofs.Tree.LeftOutSiblings
/-! # Compressed proofs of one leaf

The bitmap is a word whose digits stand for the siblings, the highest one for the sibling below the
root. It has no place for a placeholder there, as a digit zero in front is no digit of the word; all
other proofs have one compressed form.
-/
namespace VerifiedLedger.LeafProof
open Bits (number)
variable {kind : AccumulatorKind} {bitmap : UInt64} {digits : List Bool}
  {given siblings : List Digest} {proof : LeafProof kind}

/-- One bit for each sibling, the first one most significant, set if it is not the placeholder. -/
def bitmapOf (siblings : List Digest) : UInt64 :=
  .ofNat (number (givenFlags .accumulatorPlaceholder siblings))

/-- The compressed form: the bitmap and the siblings that are not the placeholder. -/
def compress (siblings : List Digest) : UInt64 × List Digest :=
  (bitmapOf siblings, givenSiblings .accumulatorPlaceholder siblings)

/-- The zeros above the highest one of a word, which are all 64 if it has none. -/
def leadingZeros (bitmap : UInt64) : ℕ := 64 - bitmap.toNat.size

/-- The word is written with these bits and no zeros in front. -/
structure HasDigits (bitmap : UInt64) (digits : List Bool) : Prop where
  length_le : digits.length ≤ 64
  head?_ne : digits.head? ≠ some false
  number_eq : number digits = bitmap.toNat

theorem exists_hasDigits (bitmap : UInt64) : ∃ digits, HasDigits bitmap digits := by
  obtain ⟨n, digits, hpath, hfirst⟩ :=
    Bits.exists_zeros_append (BitPath.ofIndex bitmap).toList
  have hlength := BitPath.length_ofIndex bitmap
  have hnumber := BitPath.number_ofIndex bitmap
  rw [hpath, List.length_append] at hlength
  rw [hpath, Bits.number_zeros_append] at hnumber
  exact ⟨digits, by omega, hfirst, hnumber⟩

namespace HasDigits
variable (h : HasDigits bitmap digits)
include h

theorem ofIndex_eq :
    BitPath.ofIndex bitmap = ⟨List.replicate (64 - digits.length) false ++ digits⟩ := by
  have hle := h.length_le
  have hlist : (BitPath.ofIndex bitmap).toList =
      List.replicate (64 - digits.length) false ++ digits := by
    apply Bits.eq_of_number_eq
    · rw [BitPath.length_ofIndex, List.length_append, List.length_replicate]
      omega
    · rw [BitPath.number_ofIndex, Bits.number_zeros_append, h.number_eq]
  exact congrArg BitPath.mk hlist

theorem ones_eq : Bits.ones bitmap.toNat = digits.count true := by
  rw [← h.number_eq, Bits.ones_number]

theorem length_eq : digits.length = 64 - leadingZeros bitmap := by
  have hle := h.length_le
  rw [leadingZeros, ← h.number_eq, Bits.size_number h.head?_ne]
  omega

theorem ofCompressed_eq_ok_iff :
    ofCompressed bitmap given = .ok proof ↔
      given.length = Bits.ones bitmap.toNat ∧
        proof = ⟨expandSiblings .accumulatorPlaceholder digits given⟩ := by
  have hones : (BitPath.ofIndex bitmap).ones = Bits.ones bitmap.toNat := by
    rw [h.ones_eq, h.ofIndex_eq, BitPath.ones, List.count_append, List.count_replicate]
    simp
  have hdigits : (BitPath.ofIndex bitmap).toList.drop (BitPath.ofIndex bitmap).leadingZeros =
      digits := by
    rw [h.ofIndex_eq, BitPath.leadingZeros_zeros_append _ h.head?_ne]
    exact List.drop_left' List.length_replicate
  rw [ofCompressed, ite_error_eq_ok_iff, hones, hdigits, not_ne_iff, Except.ok.injEq, eq_comm,
    eq_comm (a := proof)]

end HasDigits

theorem hasDigits_bitmapOf (hlength : siblings.length ≤ 64)
    (hfirst : siblings.head? ≠ some .accumulatorPlaceholder) :
    HasDigits (bitmapOf siblings) (givenFlags .accumulatorPlaceholder siblings) := by
  have hle : (givenFlags Digest.accumulatorPlaceholder siblings).length ≤ 64 :=
    length_givenFlags.trans_le hlength
  have hlt : number (givenFlags .accumulatorPlaceholder siblings) < UInt64.size :=
    (Bits.number_lt _).trans_le (Nat.pow_le_pow_right Nat.two_pos hle)
  exact ⟨hle, head?_givenFlags_ne_iff.2 hfirst, (UInt64.toNat_ofNat_of_lt' hlt).symm⟩

theorem HasDigits.bitmapOf_eq (h : HasDigits bitmap digits)
    (hflags : givenFlags .accumulatorPlaceholder siblings = digits) :
    bitmapOf siblings = bitmap := by
  rw [bitmapOf, hflags, h.number_eq, UInt64.ofNat_toNat]

section Forms

theorem exists_ofCompressed_iff :
    (∃ proof : LeafProof kind, ofCompressed bitmap given = .ok proof) ↔
      given.length = Bits.ones bitmap.toNat := by
  obtain ⟨digits, h⟩ := exists_hasDigits bitmap
  constructor
  · rintro ⟨proof, hproof⟩
    exact (h.ofCompressed_eq_ok_iff.1 hproof).1
  · intro hcount
    exact ⟨_, h.ofCompressed_eq_ok_iff.2 ⟨hcount, rfl⟩⟩

theorem depth_of_ofCompressed (hproof : ofCompressed bitmap given = .ok proof) :
    proof.siblings.length = 64 - leadingZeros bitmap := by
  obtain ⟨digits, h⟩ := exists_hasDigits bitmap
  obtain ⟨hcount, rfl⟩ := h.ofCompressed_eq_ok_iff.1 hproof
  rw [length_expandSiblings (hcount.trans h.ones_eq), h.length_eq]

theorem ofCompressed_compress (hlength : siblings.length ≤ 64)
    (hfirst : siblings.head? ≠ some .accumulatorPlaceholder) :
    ofCompressed (compress siblings).1 (compress siblings).2 =
      .ok (⟨siblings⟩ : LeafProof kind) := by
  have h := hasDigits_bitmapOf hlength hfirst
  refine h.ofCompressed_eq_ok_iff.2 ⟨?_, ?_⟩
  · exact count_givenFlags.symm.trans h.ones_eq.symm
  · rw [compress, expandSiblings_givenFlags]

theorem compress_of_ofCompressed (hproof : ofCompressed bitmap given = .ok proof)
    (hgiven : .accumulatorPlaceholder ∉ given) : compress proof.siblings = (bitmap, given) := by
  obtain ⟨digits, h⟩ := exists_hasDigits bitmap
  obtain ⟨hcount, rfl⟩ := h.ofCompressed_eq_ok_iff.1 hproof
  obtain ⟨hflags, hsiblings⟩ := given_expandSiblings (hcount.trans h.ones_eq) hgiven
  rw [compress, h.bitmapOf_eq hflags, hsiblings]

end Forms

/-- When a compressed form is taken, with how many siblings, and that compressing and expanding undo
each other. -/
theorem ofCompressed_compress_word :
    (∀ bitmap given,
      ((∃ proof : LeafProof kind, ofCompressed bitmap given = .ok proof) ↔
        given.length = Bits.ones bitmap.toNat) ∧
      ∀ proof : LeafProof kind, ofCompressed bitmap given = .ok proof →
        proof.siblings.length = 64 - leadingZeros bitmap) ∧
    (∀ siblings : List Digest, siblings.length ≤ 64 →
      siblings.head? ≠ some .accumulatorPlaceholder →
      ofCompressed (compress siblings).1 (compress siblings).2 =
        .ok (⟨siblings⟩ : LeafProof kind)) ∧
    ∀ bitmap given, given.length = Bits.ones bitmap.toNat →
      .accumulatorPlaceholder ∉ given →
      ∃ proof : LeafProof kind, ofCompressed bitmap given = .ok proof ∧
        compress proof.siblings = (bitmap, given) := by
  refine ⟨fun bitmap given => ⟨exists_ofCompressed_iff, fun proof => depth_of_ofCompressed⟩, ?_, ?_⟩
  · intro siblings
    exact ofCompressed_compress
  · intro bitmap given hcount hgiven
    obtain ⟨proof, hproof⟩ := exists_ofCompressed_iff.2 hcount
    exact ⟨proof, hproof, compress_of_ofCompressed hproof hgiven⟩

/-- A proof whose last sibling is left out as well. -/
def fourDeep : List Digest :=
  [.zero, .accumulatorPlaceholder, .zero, .accumulatorPlaceholder]

theorem ofCompressed_compress_word_four :
    fourDeep.length ≤ 64 ∧ fourDeep.head? ≠ some .accumulatorPlaceholder ∧
      compress fourDeep = (0b1010, [.zero, .zero]) ∧
      ofCompressed 0b1010 [.zero, .zero] = .ok (⟨fourDeep⟩ : LeafProof .transaction) ∧
      [Digest.zero, .zero].length = Bits.ones (0b1010 : UInt64).toNat ∧
      Digest.accumulatorPlaceholder ∉ [Digest.zero, .zero] ∧
      ∃ proof : LeafProof .transaction, ofCompressed 0b1010 [.zero, .zero] = .ok proof ∧
        compress proof.siblings = (0b1010, [.zero, .zero]) := by
  obtain ⟨hiff, hround, hback⟩ := @ofCompressed_compress_word .transaction
  have hlength : fourDeep.length ≤ 64 := by decide
  have hfirst : fourDeep.head? ≠ some .accumulatorPlaceholder := by decide +kernel
  have hcompress : compress fourDeep = (0b1010, [.zero, .zero]) := by decide +kernel
  have hexpand := hround fourDeep hlength hfirst
  rw [hcompress] at hexpand
  have hcount := (hiff _ _).1.1 ⟨_, hexpand⟩
  have hgiven : Digest.accumulatorPlaceholder ∉ [Digest.zero, .zero] := by decide +kernel
  exact ⟨hlength, hfirst, hcompress, hexpand, hcount, hgiven, hback _ _ hcount hgiven⟩

end VerifiedLedger.LeafProof
