import VerifiedLedger.Proofs.Accumulator.Records
import VerifiedLedger.Proofs.Tree.Levels
/-! # The path of a leaf

The siblings of a leaf are read off the levels of the tree. They lead the leaf to the root that the
accumulator hashes from its subtrees; another leaf or other siblings, as many of them, do not.
-/
namespace VerifiedLedger
open HashTree (KeepsApart Within)
variable {kind : AccumulatorKind}

/-- The siblings of a leaf from the leaf level up, with a placeholder where a level ends. -/
def siblingPath {α : Type} (node : α → α → α) (placeholder : α) (leaves : List α) (index : ℕ) :
    List α :=
  (List.range (height leaves)).map fun level =>
    (levelAbove node placeholder leaves level).getD (neighbour (index / 2 ^ level)) placeholder

namespace LeafProof
variable {proof proof' : LeafProof kind} {leaf leaf' expected : Digest} {leaves : List Digest}
  {index : ℕ}

/-- The siblings of a leaf, the one below the root first. -/
def ofLevels (kind : AccumulatorKind) (leaves : List Digest) (index : ℕ) : LeafProof kind :=
  ⟨(siblingPath kind.node .accumulatorPlaceholder leaves index).reverse⟩

section Lengths

theorem eq_of_computation_eq (hlength : proof.siblings.length = proof'.siblings.length)
    (h : proof.computation index leaf = proof'.computation index leaf') :
    leaf = leaf' ∧ proof = proof' := by
  obtain ⟨siblings⟩ := proof
  obtain ⟨siblings'⟩ := proof'
  have hgivens : (siblings.reverse.map HashTree.given).length =
      (siblings'.reverse.map HashTree.given).length := by
    rw [List.length_map, List.length_map, List.length_reverse, List.length_reverse]
    exact hlength
  obtain ⟨hleaf, hsiblings⟩ := eq_of_climb_eq hgivens h
  have hinj : Function.Injective (HashTree.given (α := Digest)) := fun _ _ => HashTree.given.inj
  have hreverse := List.map_injective_iff.2 hinj hsiblings
  exact ⟨hinj hleaf, congrArg mk (List.reverse_injective hreverse)⟩

theorem sameShape_computation (hlength : proof.siblings.length = proof'.siblings.length) :
    (proof.computation index leaf).SameShape (proof'.computation index leaf') := by
  have hreverse : proof.siblings.reverse.length = proof'.siblings.reverse.length := by
    rw [List.length_reverse, List.length_reverse, hlength]
  have hleaf : (HashTree.given leaf).SameShape (.given leaf') := trivial
  exact climb_related Forest.joins_sameShape hleaf (Forest.forall₂_sameShape_given hreverse) index

/-- Two proofs of one length for one index and root are one proof of one leaf. -/
theorem eq_of_value_computation_eq (hlength : proof.siblings.length = proof'.siblings.length)
    (hapart : KeepsApart kind.node
      ((proof.computation index leaf).pairs kind.node .accumulatorPlaceholder)
      ((proof'.computation index leaf').pairs kind.node .accumulatorPlaceholder))
    (h : (proof.computation index leaf).value kind.node .accumulatorPlaceholder =
      (proof'.computation index leaf').value kind.node .accumulatorPlaceholder) :
    leaf = leaf' ∧ proof = proof' :=
  eq_of_computation_eq hlength (HashTree.eq_of_value_eq (sameShape_computation hlength) hapart h)

theorem verify_of_climb_ne (hdepth : proof.siblings.length ≤ maxDepth)
    (hindex : index < 2 ^ proof.siblings.length)
    (h : climb kind.node leaf (indexSteps index proof.siblings.reverse) ≠ expected) :
    proof.verify index leaf expected = .error
      (.wrongRoot (climb kind.node leaf (indexSteps index proof.siblings.reverse)) expected) := by
  have hshift : index >>> proof.siblings.length = 0 := by
    rw [Nat.shiftRight_eq_div_pow, Nat.div_eq_of_lt hindex]
  rw [verify]
  dsimp only
  rw [if_neg (Nat.not_lt.2 hdepth), if_neg (not_not_intro hshift), if_neg h]

end Lengths

section Levels

theorem siblings_ofLevels (leaves : List Digest) (index : ℕ) :
    (ofLevels kind leaves index).siblings.reverse =
      neighbours kind.node .accumulatorPlaceholder leaves index (height leaves) := by
  rw [ofLevels, List.reverse_reverse, siblingPath, neighbours]
  exact List.map_congr_left fun level _ => getD_levelAbove _ _ _ _ _

theorem length_ofLevels (leaves : List Digest) (index : ℕ) :
    (ofLevels kind leaves index).siblings.length = height leaves := by
  rw [← List.length_reverse, siblings_ofLevels, length_neighbours]

/-- What the verifier computes is the part of the tree that is above the leaf. -/
theorem within_computation_ofLevels (kind : AccumulatorKind)
    (hmax : leaves.length ≤ Forest.maxLeaves) (h : index < leaves.length) :
    Within kind.node .accumulatorPlaceholder
      ((ofLevels kind leaves index).computation index leaves[index]) (Forest.treeTerm leaves) := by
  have hsiblings : List.Forall₂ (Within kind.node .accumulatorPlaceholder)
      ((ofLevels kind leaves index).siblings.reverse.map .given)
      (neighbours .node .placeholder (leaves.map .given) index (height leaves)) := by
    rw [siblings_ofLevels, List.forall₂_map_left_iff]
    exact neighbours_related (R := fun a s => Within _ _ (.given a) s)
      (Forest.within_treeNode leaves) index _
  have hleaf : Within kind.node .accumulatorPlaceholder (.given leaves[index])
      (.given leaves[index]) := Forest.within_given rfl
  have hclimb := climb_related Forest.joins_within hleaf hsiblings index
  rwa [climb_nodeTerm h, Nat.div_eq_of_lt (lt_two_pow_height h), nodeTerm,
    ← Forest.treeTerm_eq_treeNode hmax] at hclimb

theorem depth_ofLevels (kind : AccumulatorKind) (hmax : leaves.length ≤ 2 ^ 63)
    (h : index < leaves.length) :
    (ofLevels kind leaves index).siblings.length ≤ maxDepth ∧
      index < 2 ^ (ofLevels kind leaves index).siblings.length := by
  rw [length_ofLevels]
  have hheight : height leaves ≤ 63 := Nat.clog_le_of_le_pow hmax
  exact ⟨hheight.trans (by decide), lt_two_pow_height h⟩

end Levels

/-- The path of a leaf in the tree is good, and it is the only one of its length: another leaf or
other siblings lead to another root, unless strings that are hashed on one of the ways collide. -/
theorem verify_ofLevels (kind : AccumulatorKind) (hmax : leaves.length ≤ 2 ^ 63)
    (h : index < leaves.length) :
    ∃ a : Accumulator kind, Accumulator.ofLeaves leaves = .ok a ∧
      (ofLevels kind leaves index).verify index leaves[index] a.root = .ok () ∧
      ∀ (leaf : Digest) (proof : LeafProof kind),
        proof.siblings.length = (ofLevels kind leaves index).siblings.length →
        (leaf, proof) ≠ (leaves[index], ofLevels kind leaves index) →
        CollisionFree ((Forest.treeTerm leaves).hashed kind ++
          (proof.computation index leaf).hashed kind) →
        proof.verify index leaf a.root = .error (.wrongRoot
          (climb kind.node leaf (indexSteps index proof.siblings.reverse)) a.root) := by
  have hleaves : leaves.length ≤ Forest.maxLeaves := hmax.trans_eq (Nat.one_shiftLeft 63).symm
  obtain ⟨hdepth, hindex⟩ := depth_ofLevels kind hmax h
  have hwithin := within_computation_ofLevels kind hleaves h
  let a : Accumulator kind := .ofPrefix leaves leaves.length
  have ha : Accumulator.ofLeaves leaves = .ok a := Accumulator.ofLeaves_eq_ofPrefix hleaves
  have hroot : ((ofLevels kind leaves index).computation index leaves[index]).value kind.node
      .accumulatorPlaceholder = a.root :=
    hwithin.value_eq.trans (Forest.value_treeTerm (Accumulator.ofLeaves_eq_ok_iff.1 ha))
  refine ⟨a, ha, verify_eq_ok_iff.2 ⟨hdepth, hindex, ?_⟩, fun leaf proof hlength hne hfree => ?_⟩
  · rw [← value_computation, hroot]
  · rw [← hlength] at hdepth hindex
    refine verify_of_climb_ne hdepth hindex fun hsame => hne ?_
    rw [← value_computation, ← hroot] at hsame
    have hapart := HashTree.keepsApart_of_collisionFree hfree (List.subset_append_right _ _)
      (List.Subset.trans (List.map_subset _ hwithin.pairs_subset) (List.subset_append_left _ _))
    obtain ⟨hleaf, hproof⟩ := eq_of_value_computation_eq hlength hapart hsame
    exact Prod.ext hleaf hproof

/-- The third of three leaves, where the sibling is a placeholder, and the same path for what is no
leaf. -/
theorem verify_ofLevels_three :
    [Digest.zero, .zero, .zero].length ≤ 2 ^ 63 ∧ 2 < [Digest.zero, .zero, .zero].length ∧
      ∃ a : Accumulator .event, Accumulator.ofLeaves [.zero, .zero, .zero] = .ok a ∧
        (ofLevels .event [.zero, .zero, .zero] 2).verify 2 .zero a.root = .ok () ∧
        ∃ computed,
          (ofLevels .event [.zero, .zero, .zero] 2).verify 2 .accumulatorPlaceholder a.root =
            .error (.wrongRoot computed a.root) := by
  have hmax : [Digest.zero, .zero, .zero].length ≤ 2 ^ 63 := by decide
  have hindex : 2 < [Digest.zero, .zero, .zero].length := by decide
  obtain ⟨a, ha, hok, hother⟩ := verify_ofLevels .event hmax hindex
  have hne : (Digest.accumulatorPlaceholder, ofLevels .event [.zero, .zero, .zero] 2) ≠
      (.zero, ofLevels .event [.zero, .zero, .zero] 2) := by decide +kernel
  exact ⟨hmax, hindex, a, ha, hok, _, hother _ _ rfl hne (by decide +kernel)⟩

end LeafProof
end VerifiedLedger
