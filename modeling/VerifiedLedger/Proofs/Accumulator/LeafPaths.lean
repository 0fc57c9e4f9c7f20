import VerifiedLedger.Accumulator.LeafProof
import VerifiedLedger.Proofs.Bits
import VerifiedLedger.Proofs.Checks
/-! # Paths of one leaf

The siblings of a path meet one bit of the index each and no others. The verifier makes up for the
others by refusing an index that has any.
-/
namespace VerifiedLedger
variable {α : Type} {node : α → α → α}

/-- Bits above the siblings make no difference. -/
theorem indexSteps_congr {first second : ℕ} {siblings : List α}
    (h : first % 2 ^ siblings.length = second % 2 ^ siblings.length) :
    indexSteps first siblings = indexSteps second siblings := by
  induction siblings generalizing first second with
  | nil => rfl
  | cons sibling siblings ih =>
    obtain ⟨hbit, hrest⟩ := Bits.half_congr h
    rw [indexSteps, indexSteps, hbit, ih hrest]

theorem indexSteps_map {β : Type} (f : α → β) (index : ℕ) (siblings : List α) :
    indexSteps index (siblings.map f) = (indexSteps index siblings).map (Prod.map id f) := by
  induction siblings generalizing index with
  | nil => rfl
  | cons sibling siblings ih =>
    rw [List.map_cons, indexSteps, indexSteps, List.map_cons, ih]
    rfl

namespace LeafProof
variable {kind : AccumulatorKind} {proof : LeafProof kind} {index : ℕ} {leaf expected : Digest}

theorem verify_eq_ok_iff :
    proof.verify index leaf expected = .ok () ↔
      proof.siblings.length ≤ maxDepth ∧ index < 2 ^ proof.siblings.length ∧
        climb kind.node leaf (indexSteps index proof.siblings.reverse) = expected := by
  have hshift : index >>> proof.siblings.length = 0 ↔ index < 2 ^ proof.siblings.length := by
    rw [Nat.shiftRight_eq_div_pow, Nat.div_eq_zero_iff_lt (Nat.two_pow_pos _)]
  simp only [verify, ite_error_eq_ok_iff, ne_eq, hshift, Nat.not_lt, Nat.not_le]
  refine and_congr_right fun _ => and_congr_right fun _ => ?_
  by_cases h : climb kind.node leaf (indexSteps index proof.siblings.reverse) = expected
  · simp [h]
  · simp [h]

/-- A proof lists its siblings from the root down and the steps take them from the leaf up. -/
theorem verify_reverse_eq_ok_iff {siblings : List Digest} :
    (⟨siblings.reverse⟩ : LeafProof kind).verify index leaf expected = .ok () ↔
      siblings.length ≤ maxDepth ∧ index < 2 ^ siblings.length ∧
        climb kind.node leaf (indexSteps index siblings) = expected := by
  rw [verify_eq_ok_iff, List.length_reverse, List.reverse_reverse]

end LeafProof
end VerifiedLedger
