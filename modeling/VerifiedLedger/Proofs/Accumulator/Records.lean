import VerifiedLedger.Proofs.Accumulator.Growth
import VerifiedLedger.Proofs.Accumulator.LeafPaths
import VerifiedLedger.Proofs.Hash.Separation
import VerifiedLedger.Proofs.Tree.Paths
/-! # Trees of records

The leaves are records, each hashed in a domain that no node of the tree is hashed in. Then the root
says at which index a record is, and how many there are: a path that is too short ends in a leaf
that was hashed as a node, and one that is too long passes through a leaf.
-/
namespace VerifiedLedger

namespace Accumulator
variable {kind : AccumulatorKind} {d : Domain} {strings records records' : List (List UInt8)}
  {root : Digest}

/-- The strings that are hashed when the records become leaves and the leaves a tree. -/
def building (kind : AccumulatorKind) (d : Domain) (records : List (List UInt8)) :
    List (List UInt8) :=
  records.map d.preimage ++ (Forest.treeTerm (records.map d.hash)).hashed kind

/-- The root of the tree over the records. -/
def rootOf (kind : AccumulatorKind) (d : Domain) (records : List (List UInt8)) :
    Except ProofError Digest :=
  Accumulator.root <$> (ofLeaves (records.map d.hash) : Except ProofError (Accumulator kind))

theorem length_le_of_rootOf (h : rootOf kind d records = .ok root) :
    records.length ≤ Forest.maxLeaves := by
  obtain ⟨tree, htree, -⟩ := map_eq_ok_iff.1 h
  have hle := Forest.length_le_of_appendAll (Nat.zero_le _) (ofLeaves_eq_ok_iff.1 htree)
  rwa [Forest.empty, Nat.zero_add, List.length_map] at hle

section Tree
variable (h : rootOf kind d records = .ok root)
include h

theorem treeTerm_eq_nodeTerm :
    Forest.treeTerm (records.map d.hash) =
      nodeTerm (records.map d.hash) (height (records.map d.hash)) 0 :=
  Forest.treeTerm_eq_treeNode ((List.length_map _).trans_le (length_le_of_rootOf h))

theorem treeNode_eq_root :
    treeNode kind.node .accumulatorPlaceholder (records.map d.hash)
      (height (records.map d.hash)) 0 = root := by
  obtain ⟨tree, htree, hroot⟩ := map_eq_ok_iff.1 h
  have hvalue : (Forest.treeTerm (records.map d.hash)).value kind.node .accumulatorPlaceholder =
      tree.root := Forest.value_treeTerm (ofLeaves_eq_ok_iff.1 htree)
  rw [treeTerm_eq_nodeTerm h, value_nodeTerm] at hvalue
  exact hvalue.trans hroot

end Tree

section Binding
variable (hfree : CollisionFree strings) (havoid : AvoidsDigest .accumulatorPlaceholder strings)
  (hd : d ≠ kind.domain)
include hfree havoid hd

/-- Records and nodes are hashed in two domains, and what stands for nothing is not hashed. -/
theorem separates :
    Separates kind.node .accumulatorPlaceholder (fun p => kind.domain.pairString p ∈ strings)
      (fun a => ∃ x, d.preimage x ∈ strings ∧ d.hash x = a) where
  apart _ _ hp hq h := Domain.eq_of_hashPair_eq hfree hp hq h
  parent_ne_empty _ hp := Domain.hash_ne_placeholder havoid hp
  parent_not_leaf := by
    rintro p hp ⟨x, hx, h⟩
    exact Domain.hash_ne_of_ne hfree hd hx hp h
  empty_not_leaf := by
    rintro ⟨x, hx, h⟩
    exact Domain.hash_ne_placeholder havoid hx h

variable (hbuild : building kind d records ⊆ strings) (hroot : rootOf kind d records = .ok root)
include hbuild hroot

/-- A record that is hashed up to the root is the record with that index. -/
theorem record_of_climb {x : List UInt8} (hx : d.preimage x ∈ strings) {index : ℕ}
    {siblings : List (HashTree Digest)} (hindex : index < 2 ^ siblings.length)
    (hpath : (climb .node (.given (d.hash x)) (indexSteps index siblings)).hashed kind ⊆ strings)
    (hvalue : (climb .node (.given (d.hash x)) (indexSteps index siblings)).value kind.node
      .accumulatorPlaceholder = root) :
    siblings.length = height (records.map d.hash) ∧ records[index]? = some x := by
  have hsep := separates hfree havoid hd
  have hpreimage : ∀ y ∈ records, d.preimage y ∈ strings := fun y hy =>
    hbuild (List.mem_append_left _ (List.mem_map_of_mem hy))
  have hleaves : ∀ a ∈ records.map d.hash, ∃ y, d.preimage y ∈ strings ∧ d.hash y = a := by
    intro a ha
    obtain ⟨y, hy, rfl⟩ := List.mem_map.1 ha
    exact ⟨y, hpreimage y hy, rfl⟩
  have htop : index / 2 ^ siblings.length = 0 := Nat.div_eq_of_lt hindex
  have htree : ∀ p ∈ (nodeTerm (records.map d.hash) (height (records.map d.hash))
      (index / 2 ^ siblings.length)).pairs kind.node .accumulatorPlaceholder,
      kind.domain.pairString p ∈ strings := by
    rw [htop, ← treeTerm_eq_nodeTerm hroot]
    exact fun p hp => hbuild (List.mem_append_right _ (List.mem_map_of_mem hp))
  rw [← treeNode_eq_root hroot, ← htop] at hvalue
  obtain ⟨hlength, hleaf⟩ := leaf_of_climb hsep hleaves ⟨x, hx, rfl⟩
    (fun p hp => hpath (List.mem_map_of_mem hp)) htree hvalue
  refine ⟨hlength, ?_⟩
  rw [List.getElem?_map] at hleaf
  obtain ⟨y, hy, hhash⟩ := Option.map_eq_some_iff.1 hleaf
  have hsame := Domain.eq_of_hash_eq hfree (hpreimage y (List.mem_of_getElem? hy)) hx hhash
  rw [hy, hsame.2]

/-- The path of a record in another tree with the same root. -/
theorem getElem?_of_rootOf_eq (hbuild' : building kind d records' ⊆ strings)
    (hroot' : rootOf kind d records' = .ok root) {index : ℕ} {x : List UInt8}
    (hx : records'[index]? = some x) : records[index]? = some x := by
  obtain ⟨hlt, hget⟩ := List.getElem?_eq_some_iff.1 hx
  have hleaf : index < (records'.map d.hash).length := by rwa [List.length_map]
  have hindex := lt_two_pow_height hleaf
  have hpath := climb_nodeTerm hleaf (height (records'.map d.hash))
  have hlength := length_neighbours HashTree.node HashTree.placeholder
    ((records'.map d.hash).map .given) index (height (records'.map d.hash))
  rw [List.getElem_map, hget, Nat.div_eq_of_lt hindex, ← treeTerm_eq_nodeTerm hroot'] at hpath
  refine (record_of_climb hfree havoid hd hbuild hroot
    (hbuild' (List.mem_append_left _ (List.mem_map_of_mem (List.mem_of_getElem? hx))))
    (hindex.trans_eq (congrArg (2 ^ ·) hlength.symm)) ?_ ?_).2
  · rw [hpath]
    exact List.Subset.trans (List.subset_append_right _ _) hbuild'
  · rw [hpath, treeTerm_eq_nodeTerm hroot', value_nodeTerm, treeNode_eq_root hroot']

end Binding

/-- Trees with one root are trees of the same records. -/
theorem records_eq_of_rootOf_eq (hfree : CollisionFree strings)
    (havoid : AvoidsDigest .accumulatorPlaceholder strings) (hd : d ≠ kind.domain)
    (hbuild : building kind d records ⊆ strings) (hbuild' : building kind d records' ⊆ strings)
    (hroot : rootOf kind d records = .ok root) (hroot' : rootOf kind d records' = .ok root) :
    records = records' := by
  apply List.ext_getElem?
  intro index
  apply Option.ext
  intro x
  constructor
  · exact getElem?_of_rootOf_eq hfree havoid hd hbuild' hroot' hbuild hroot
  · exact getElem?_of_rootOf_eq hfree havoid hd hbuild hroot hbuild' hroot'

end Accumulator

namespace LeafProof
variable {kind : AccumulatorKind} {proof : LeafProof kind} {d : Domain}
  {strings records : List (List UInt8)} {root : Digest}

/-- How the root is hashed from the leaf and the siblings. -/
def computation (proof : LeafProof kind) (index : ℕ) (leaf : Digest) : HashTree Digest :=
  climb .node (.given leaf) (indexSteps index (proof.siblings.reverse.map .given))

theorem value_computation (proof : LeafProof kind) (index : ℕ) (leaf : Digest) :
    (proof.computation index leaf).value kind.node .accumulatorPlaceholder =
      climb kind.node leaf (indexSteps index proof.siblings.reverse) := by
  rw [computation, indexSteps_map]
  exact value_climbTerm _ _ _ _

/-- The verifier accepts a record at its own index only, whatever the depth of the proof. -/
theorem record_of_verify (hfree : CollisionFree strings)
    (havoid : AvoidsDigest .accumulatorPlaceholder strings) (hd : d ≠ kind.domain)
    (hbuild : Accumulator.building kind d records ⊆ strings)
    (hroot : Accumulator.rootOf kind d records = .ok root) {index : ℕ} {x : List UInt8}
    (hok : proof.verify index (d.hash x) root = .ok ()) (hx : d.preimage x ∈ strings)
    (hcheck : (proof.computation index (d.hash x)).hashed kind ⊆ strings) :
    records[index]? = some x := by
  obtain ⟨-, hindex, hclimb⟩ := verify_eq_ok_iff.1 hok
  have hlength : (proof.siblings.reverse.map HashTree.given).length = proof.siblings.length := by
    rw [List.length_map, List.length_reverse]
  exact (Accumulator.record_of_climb hfree havoid hd hbuild hroot hx (hlength ▸ hindex) hcheck
    ((value_computation proof index _).trans hclimb)).2

end LeafProof
end VerifiedLedger
