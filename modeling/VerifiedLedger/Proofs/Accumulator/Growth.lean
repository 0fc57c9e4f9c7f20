import VerifiedLedger.Accumulator.Basic
import VerifiedLedger.Proofs.Tree.Tiles
/-! # Growing an accumulator by subtrees

What the operations of an accumulator do to its forest, and that the subtrees which new leaves form
in the tree lead to the same accumulator as the leaves themselves.
-/
namespace VerifiedLedger.Accumulator
variable {kind : AccumulatorKind} {a b : Accumulator kind}

theorem toForest_injective : Function.Injective (toForest : Accumulator kind → Forest Digest) := by
  rintro ⟨f⟩ ⟨g⟩ h
  exact congrArg mk h

theorem mk_map_eq_ok_iff {x : Except ProofError (Forest Digest)} :
    (Accumulator.mk <$> x : Except ProofError (Accumulator kind)) = .ok a ↔ x = .ok a.toForest := by
  rw [map_eq_ok_iff]
  constructor
  · rintro ⟨f, hf, rfl⟩
    exact hf
  · exact fun h => ⟨a.toForest, h, rfl⟩

theorem ofLeaves_eq_ok_iff {leaves : List Digest} :
    ofLeaves leaves = .ok a ↔ Forest.ofLeaves kind.node leaves = .ok a.toForest :=
  mk_map_eq_ok_iff

theorem appendSubtrees_eq_ok_iff {subtrees : List Digest} {newLeaves : ℕ} :
    a.appendSubtrees subtrees newLeaves = .ok b ↔
      a.toForest.appendSubtrees kind.node subtrees newLeaves = .ok b.toForest :=
  mk_map_eq_ok_iff

/-- The accumulator of the first leaves of a tree. -/
def ofPrefix (leaves : List Digest) (count : ℕ) : Accumulator kind :=
  ⟨prefixForest kind.node .accumulatorPlaceholder leaves count⟩

theorem ofLeaves_eq_ofPrefix {leaves : List Digest} (hmax : leaves.length ≤ Forest.maxLeaves) :
    ofLeaves leaves = .ok (ofPrefix leaves leaves.length : Accumulator kind) :=
  ofLeaves_eq_ok_iff.2 (ofLeaves_eq_prefixForest kind.node .accumulatorPlaceholder hmax)

/-- The accumulator of the first leaves, extended by the subtrees that the others form in the tree
over all of them, is the accumulator of all of them. -/
theorem appendSubtrees_ofLeaves (first second : List Digest)
    (h : first.length + second.length ≤ Forest.maxLeaves) :
    ∃ known grown : Accumulator kind, ofLeaves first = .ok known ∧
      known.appendSubtrees
          (tileRoots kind.node .accumulatorPlaceholder (first ++ second) first.length second.length)
          second.length = .ok grown ∧
      ofLeaves (first ++ second) = .ok grown ∧
      grown.leafCount = first.length + second.length := by
  have hlength : (first ++ second).length = first.length + second.length := List.length_append
  have hmax : (first ++ second).length ≤ Forest.maxLeaves := hlength ▸ h
  have hknown := ofLeaves_take kind.node .accumulatorPlaceholder hmax
    (hlength ▸ Nat.le_add_right _ _ : first.length ≤ (first ++ second).length)
  rw [List.take_left] at hknown
  have hgrown := appendSubtrees_prefixForest kind.node .accumulatorPlaceholder hmax hlength.ge
  have hall : ofLeaves (first ++ second) = .ok (ofPrefix (first ++ second) _ : Accumulator kind) :=
    ofLeaves_eq_ofPrefix hmax
  rw [hlength] at hall
  exact ⟨ofPrefix (first ++ second) first.length, _, ofLeaves_eq_ok_iff.2 hknown,
    appendSubtrees_eq_ok_iff.2 hgrown, hall, rfl⟩

/-- Six leaves after five come as a leaf and a pair that fill up the first eight, then a pair and a
leaf. -/
theorem appendSubtrees_ofLeaves_five_six :
    List.length (List.replicate 5 Digest.zero) +
        List.length (List.replicate 6 Digest.accumulatorPlaceholder) ≤ Forest.maxLeaves ∧
      ∃ known grown : Accumulator .event, ofLeaves (List.replicate 5 .zero) = .ok known ∧
        known.appendSubtrees
            (tileRoots AccumulatorKind.event.node .accumulatorPlaceholder
              (List.replicate 5 .zero ++ List.replicate 6 .accumulatorPlaceholder) 5 6) 6 =
          .ok grown ∧
        ofLeaves (List.replicate 5 .zero ++ List.replicate 6 .accumulatorPlaceholder) =
          .ok grown ∧
        grown.leafCount = 11 :=
  ⟨by decide, appendSubtrees_ofLeaves (List.replicate 5 .zero)
    (List.replicate 6 .accumulatorPlaceholder) (by decide)⟩

end VerifiedLedger.Accumulator
