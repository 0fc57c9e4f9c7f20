import VerifiedLedger.SparseTree.Proof
import VerifiedLedger.Proofs.Bytes.BitNumber
import VerifiedLedger.Proofs.Checks
import VerifiedLedger.Proofs.Tree.LeftOutSiblings
/-! # Compressed proofs of a key

Here the bits stand from the left: the first bit of the bytes is the sibling below the root, and the
last one that is set ends the proof. What comes after it in its byte is filled up with zeros, so that
no bitmap ends in a zero byte.
-/
namespace VerifiedLedger.SparseProof
open BitPath (bitAt bytesOf)
variable {leaf : Option SparseLeaf} {bitmap : List UInt8} {rest : List Bool} {n : ℕ}
  {given siblings : List Digest} {proof : SparseProof}

/-- As many bytes as the siblings need; a bit is set if its sibling is not the placeholder. -/
def bitmapOf (siblings : List Digest) : List UInt8 :=
  bytesOf ((siblings.length + 7) / 8) fun i =>
    siblings[i]?.any fun sibling => decide (sibling ≠ .sparsePlaceholder)

/-- The compressed form: the bitmap and the siblings that are not the placeholder. -/
def compress (siblings : List Digest) : List UInt8 × List Digest :=
  (bitmapOf siblings, givenSiblings .sparsePlaceholder siblings)

/-- How many bits of the bytes are set. -/
def setBits (bitmap : List UInt8) : ℕ := (bitmap.map fun b => Bits.ones b.toNat).sum

/-- The bits of the bytes up to the last one that is set, and how many zeros follow. -/
structure EndsAfter (bitmap : List UInt8) (bits : List Bool) (n : ℕ) : Prop where
  bits_eq : bitmap.flatMap byteBits = bits ++ List.replicate n false
  getLast?_ne : bits.getLast? ≠ some false

section Bitmaps

theorem map_range_any {α : Type} (p : α → Bool) (xs : List α) (n : ℕ) :
    (List.range (xs.length + n)).map (fun i => xs[i]?.any p) =
      xs.map p ++ List.replicate n false := by
  induction xs with
  | nil =>
    rw [List.length_nil, Nat.zero_add, List.map_nil, List.nil_append, List.eq_replicate_iff,
      List.length_map, List.length_range, List.forall_mem_map]
    exact ⟨rfl, fun _ _ => rfl⟩
  | cons x xs ih =>
    rw [List.length_cons, Nat.add_right_comm, List.range_succ_eq_map, List.map_cons, List.map_map,
      List.map_cons, List.cons_append, ← ih]
    rfl

theorem flatMap_byteBits_bitmapOf (siblings : List Digest) :
    (bitmapOf siblings).flatMap byteBits = givenFlags .sparsePlaceholder siblings ++
      List.replicate (8 * ((siblings.length + 7) / 8) - siblings.length) false := by
  have hlength : 8 * ((siblings.length + 7) / 8) =
      siblings.length + (8 * ((siblings.length + 7) / 8) - siblings.length) := by omega
  rw [bitmapOf, BitPath.flatMap_byteBits_bytesOf]
  conv_lhs => rw [hlength]
  exact map_range_any _ siblings _

theorem endsAfter_bitmapOf (hlast : siblings.getLast? ≠ some .sparsePlaceholder) :
    EndsAfter (bitmapOf siblings) (givenFlags .sparsePlaceholder siblings)
      (8 * ((siblings.length + 7) / 8) - siblings.length) :=
  ⟨flatMap_byteBits_bitmapOf siblings, getLast?_givenFlags_ne_iff.2 hlast⟩

theorem exists_endsAfter (bitmap : List UInt8) : ∃ bits n, EndsAfter bitmap bits n := by
  obtain ⟨n, bits, hbits, hlast⟩ := Bits.exists_append_zeros (bitmap.flatMap byteBits)
  exact ⟨bits, n, hbits, hlast⟩

end Bitmaps

namespace EndsAfter
variable {bits : List Bool} (h : EndsAfter bitmap bits n)
include h

theorem path_eq : BitPath.ofBytes bitmap = ⟨bits ++ List.replicate n false⟩ :=
  congrArg BitPath.mk h.bits_eq

theorem lt_iff : n < 8 ↔ bitmap.getLast? ≠ some 0 := by
  rw [← BitPath.trailingZeros_ofBytes_lt_iff, h.path_eq,
    BitPath.trailingZeros_append_zeros n h.getLast?_ne]

theorem length_eq : bits.length + n = 8 * bitmap.length := by
  have hlength := congrArg List.length h.bits_eq
  rw [length_flatMap_byteBits, List.length_append, List.length_replicate] at hlength
  exact hlength.symm

theorem setBits_eq : setBits bitmap = bits.count true := by
  rw [setBits, ← BitPath.ones_ofBytes, h.path_eq, BitPath.ones, List.count_append,
    List.count_replicate]
  simp

theorem ofCompressed_eq_ok_iff :
    ofCompressed leaf bitmap given = .ok proof ↔
      bitmap.length ≤ 32 ∧ bitmap.getLast? ≠ some 0 ∧ given.length = setBits bitmap ∧
        proof = ⟨leaf, expandSiblings .sparsePlaceholder bits given⟩ := by
  have hdepth : (BitPath.ofBytes bitmap).toList.take
      ((BitPath.ofBytes bitmap).capacity - (BitPath.ofBytes bitmap).trailingZeros) = bits := by
    rw [h.path_eq, BitPath.trailingZeros_append_zeros n h.getLast?_ne, BitPath.capacity,
      List.length_append, List.length_replicate, Nat.add_sub_cancel]
    exact List.take_left' rfl
  simp only [ofCompressed, ite_error_eq_ok_iff, Nat.not_lt, BitPath.ones_ofBytes, hdepth, ne_eq,
    Decidable.not_not, Except.ok.injEq, Digest.size]
  rw [← setBits, eq_comm (a := setBits bitmap), eq_comm (a := proof)]

/-- The last bit of the proof is the last one of the bytes that is set. -/
theorem isGreatest (hne : bits ≠ []) :
    IsGreatest {i | bitAt bitmap i = true} (bits.length - 1) := by
  obtain ⟨before, b, rfl⟩ := bits.eq_nil_or_concat'.resolve_left hne
  have hone : b = true := by
    have hlast := h.getLast?_ne
    rw [List.getLast?_concat] at hlast
    cases b with
    | false => exact absurd rfl hlast
    | true => rfl
  have hbits := h.bits_eq
  rw [hone, List.append_assoc, List.singleton_append] at hbits
  rw [List.length_append, List.length_singleton, Nat.add_sub_cancel]
  exact BitPath.isGreatest_bitAt hbits

end EndsAfter

section Forms

theorem exists_ofCompressed_iff :
    (∃ proof, ofCompressed leaf bitmap given = .ok proof) ↔
      bitmap.length ≤ 32 ∧ bitmap.getLast? ≠ some 0 ∧ given.length = setBits bitmap := by
  obtain ⟨bits, n, h⟩ := exists_endsAfter bitmap
  constructor
  · rintro ⟨proof, hproof⟩
    obtain ⟨hlength, hlast, hcount, -⟩ := h.ofCompressed_eq_ok_iff.1 hproof
    exact ⟨hlength, hlast, hcount⟩
  · rintro ⟨hlength, hlast, hcount⟩
    exact ⟨_, h.ofCompressed_eq_ok_iff.2 ⟨hlength, hlast, hcount, rfl⟩⟩

/-- The siblings that are expanded stand for the bits up to the last one that is set. -/
theorem EndsAfter.length_siblings {bits : List Bool} (h : EndsAfter bitmap bits n)
    (hproof : ofCompressed leaf bitmap given = .ok proof) :
    proof.siblings.length = bits.length ∧ n < 8 := by
  obtain ⟨-, hlast, hcount, rfl⟩ := h.ofCompressed_eq_ok_iff.1 hproof
  exact ⟨length_expandSiblings (hcount.trans h.setBits_eq), h.lt_iff.2 hlast⟩

theorem depth_of_ofCompressed (hproof : ofCompressed leaf bitmap given = .ok proof) :
    (bitmap = [] → proof.siblings = []) ∧
      (bitmap ≠ [] → ∃ last, IsGreatest {i | bitAt bitmap i = true} last ∧
        proof.siblings.length = last + 1) := by
  obtain ⟨bits, n, h⟩ := exists_endsAfter bitmap
  obtain ⟨hdepth, hn⟩ := h.length_siblings hproof
  have hbits := h.length_eq
  constructor
  · rintro rfl
    exact List.eq_nil_of_length_eq_zero (hdepth.trans (Nat.eq_zero_of_add_eq_zero_right hbits))
  · intro hne
    have hpos := List.length_pos_iff.2 hne
    have hlong : bits ≠ [] := List.ne_nil_of_length_pos (by omega)
    exact ⟨_, h.isGreatest hlong, hdepth.trans (by omega)⟩

theorem ofCompressed_compress (hlength : siblings.length ≤ 256)
    (hlast : siblings.getLast? ≠ some .sparsePlaceholder) :
    ofCompressed leaf (compress siblings).1 (compress siblings).2 = .ok ⟨leaf, siblings⟩ := by
  have h := endsAfter_bitmapOf hlast
  have hbits := h.length_eq
  rw [length_givenFlags] at hbits
  refine h.ofCompressed_eq_ok_iff.2 ⟨by omega, h.lt_iff.1 (by omega), ?_, ?_⟩
  · exact count_givenFlags.symm.trans h.setBits_eq.symm
  · rw [compress, expandSiblings_givenFlags]

theorem compress_of_ofCompressed (hproof : ofCompressed leaf bitmap given = .ok proof)
    (hgiven : .sparsePlaceholder ∉ given) : compress proof.siblings = (bitmap, given) := by
  obtain ⟨bits, n, h⟩ := exists_endsAfter bitmap
  obtain ⟨hdepth, hn⟩ := h.length_siblings hproof
  obtain ⟨-, -, hcount, rfl⟩ := h.ofCompressed_eq_ok_iff.1 hproof
  obtain ⟨hflags, hsiblings⟩ := given_expandSiblings (hcount.trans h.setBits_eq) hgiven
  have hbits := h.length_eq
  -- With fewer than eight zeros at the end, the bits need as many bytes as there were.
  have hbytes := flatMap_byteBits_bitmapOf (expandSiblings .sparsePlaceholder bits given)
  rw [hflags, hdepth, show 8 * ((bits.length + 7) / 8) - bits.length = n by omega,
    ← h.bits_eq] at hbytes
  rw [compress, eq_of_flatMap_byteBits_eq hbytes, hsiblings]

end Forms

/-- When a compressed form is taken, with how many siblings, and that compressing and expanding undo
each other. -/
theorem ofCompressed_compress_bytes :
    (∀ leaf bitmap given,
      ((∃ proof, ofCompressed leaf bitmap given = .ok proof) ↔
        bitmap.length ≤ 32 ∧ bitmap.getLast? ≠ some 0 ∧ given.length = setBits bitmap) ∧
      ∀ proof, ofCompressed leaf bitmap given = .ok proof → proof.leaf = leaf ∧
        (bitmap = [] → proof.siblings = []) ∧
        (bitmap ≠ [] → ∃ last, IsGreatest {i | bitAt bitmap i = true} last ∧
          proof.siblings.length = last + 1)) ∧
    (∀ leaf siblings, siblings.length ≤ 256 → siblings.getLast? ≠ some .sparsePlaceholder →
      ofCompressed leaf (compress siblings).1 (compress siblings).2 = .ok ⟨leaf, siblings⟩) ∧
    ∀ leaf bitmap given proof, ofCompressed leaf bitmap given = .ok proof →
      .sparsePlaceholder ∉ given → compress proof.siblings = (bitmap, given) := by
  refine ⟨fun leaf bitmap given => ⟨exists_ofCompressed_iff, fun proof hproof => ?_⟩, ?_, ?_⟩
  · obtain ⟨bits, n, h⟩ := exists_endsAfter bitmap
    obtain ⟨-, -, -, hexpanded⟩ := h.ofCompressed_eq_ok_iff.1 hproof
    exact ⟨congrArg SparseProof.leaf hexpanded, depth_of_ofCompressed hproof⟩
  · intro leaf siblings
    exact ofCompressed_compress
  · intro leaf bitmap given proof
    exact compress_of_ofCompressed

/-- Eight placeholders fill the first byte, so that the only sibling given is in the second one. -/
def nineDeep : List Digest := List.replicate 8 .sparsePlaceholder ++ [.zero]

theorem ofCompressed_compress_bytes_nine :
    nineDeep.length ≤ 256 ∧ nineDeep.getLast? ≠ some .sparsePlaceholder ∧
      compress nineDeep = ([0, 0x80], [.zero]) ∧
      ofCompressed (some ⟨.zero, .zero⟩) [0, 0x80] [.zero] = .ok ⟨some ⟨.zero, .zero⟩, nineDeep⟩ ∧
      Digest.sparsePlaceholder ∉ [Digest.zero] ∧
      ∃ last, IsGreatest {i | bitAt [0, 0x80] i = true} last ∧ nineDeep.length = last + 1 := by
  obtain ⟨hforms, hround, hback⟩ := ofCompressed_compress_bytes
  have hlength : nineDeep.length ≤ 256 := by decide
  have hlast : nineDeep.getLast? ≠ some .sparsePlaceholder := by decide +kernel
  have hcompress : compress nineDeep = ([0, 0x80], [.zero]) := by decide +kernel
  have hexpand := hround (some ⟨.zero, .zero⟩) nineDeep hlength hlast
  rw [hcompress] at hexpand
  have hgiven : Digest.sparsePlaceholder ∉ [Digest.zero] := by decide +kernel
  have hagain := hback _ _ _ _ hexpand hgiven
  obtain ⟨-, -, hdepth⟩ := (hforms _ _ _).2 _ hexpand
  exact ⟨hlength, hlast, hagain, hexpand, hgiven, hdepth (List.cons_ne_nil _ _)⟩

end VerifiedLedger.SparseProof
